/-
`syscall_dispatch` (`src/core/cpu/syscall.c`) on the whole state of the kernel: the scheduler, the memory, the file
system and the terminal. Five calls are given an address by user code. None of them looks whether it is in the user
half. Of what the kernel prints on its own only the two complaints of `do_execve` are followed: they show the path.

- `sysWrite_fds`, `sysOpen_fds`: the calls on the descriptors are those of `Fds`.
- `sysWrite_prints`: a `write` that gets past its descriptor prints what it reads.
- `sysRead_nonneg`, `wait4_not_refused`: neither `read` on the console nor `wait4` is refused.
- `execve_not_refused`: an `execve` that returns has printed its path.
- `confined_iff`: when a call with an address outside the user half is refused and changes nothing.
- `kernel_byte_printed`: a byte of the kernel half on the console.
-/
import Uix.Cpu.ActiveSpace
import Uix.Cpu.SysRead

namespace Uix

open Machine List Function
open Pmm (pageIdx pageAddr)

/-- the `SYS_*` numbers -/
inductive Sysno where
  | exit
  | write
  | getpid
  | yield
  | read
  | close
  | opn
  | fork
  | execve
  | wait4
  deriving DecidableEq

def Sysno.ofRax (rax : U64) : Option Sysno :=
  [exit, write, getpid, yield, read, close, opn, fork, execve, wait4][rax.toNat]?

/-- the registers that `syscall_dispatch` reads from the frame -/
structure Regs where
  rax : U64
  rdi : U64
  rsi : U64
  rdx : U64

/-- what a call finds besides: the kernel's layout, the programs and the disk, the kernel stack, and what the heap
returns for a fork -/
structure Around where
  layout : Layout
  env : ExecEnv
  stack : ExecTask
  task : ℕ
  kstack : ℕ

/-- the kernel when user code enters it -/
structure Entry where
  sys : Sys
  input : Input

namespace Entry

/-! ## The calls

The result is `none` when the caller does not go on: it has exited, it waits, or it runs another image. -/

def ebadf : U64 := BitVec.ofInt 64 (-9)

/-- one round of the loop of `SYS_write` -/
def putByte (k : Kern) (buf : U64) (tty : Tty) (i : ℕ) : Except Stop Tty := do
  let b ← k.readByte (buf + BitVec.ofNat 64 i)
  pure (tty.putc [b])

def sysWrite (L : Layout) (s : Entry) (x : Task) (r : Regs) : Except Stop (Option U64 × Entry) :=
  if Fds.procFdType x.fds (Fds.intArg r.rdi) ≠ .consoleOut then pure (some ebadf, s) else do
  let k ← s.sys.kern L
  let tty ← (List.range r.rdx.toNat).foldlM (putByte k r.rsi) s.input.tty
  pure (some r.rdx, { s with input := { s.input with tty := tty } })

/-- bytes stored through a pointer of the caller -/
def store (L : Layout) (sys : Sys) (bs : List Byte) (va : U64) : Except Stop Sys :=
  if bs = [] then pure sys else do
  let k ← sys.kern L
  let k ← Kern.writeBytes bs va k
  pure (sys.setMem k)

def sysRead (L : Layout) (s : Entry) (x : Task) (r : Regs) : Except Stop (Option U64 × Entry) := do
  let (n, bs, input) := s.input.sysRead x.fds r.rdi r.rdx
  let sys ← store L s.sys bs r.rsi
  pure (some n, ⟨sys, input⟩)

def setFds (s : Entry) (x : Task) (fds : Fds) : Entry :=
  { s with sys := { s.sys with sched := s.sys.sched.put s.sys.sched.current { x with fds := fds } } }

def sysClose (s : Entry) (x : Task) (r : Regs) : Option U64 × Entry :=
  let (n, fds) := Fds.sysClose x.fds r.rdi
  (some n, s.setFds x fds)

/-- the loop of `SYS_open`; the list is what is left of `cons` -/
def scan (k : Kern) (path : U64) : List Byte → ℕ → Except Stop ℕ
  | [], i => pure i
  | c :: cs, i => do
    let b ← k.readByte (path + BitVec.ofNat 64 i)
    if b = c then if b = 0 then pure i else scan k path cs (i + 1) else pure i

/-- the path is `"/dev/console"` -/
def isConsole (k : Kern) (path : U64) : Except Stop Bool := do
  let i ← scan k path Fds.cons 0
  let b ← k.readByte (path + BitVec.ofNat 64 i)
  pure (b = 0 ∧ Fds.cons.getD i 0xFF#8 = 0)

def sysOpen (L : Layout) (s : Entry) (x : Task) (r : Regs) : Except Stop (Option U64 × Entry) := do
  let k ← s.sys.kern L
  let found ← isConsole k r.rdi
  if !found then pure (some (BitVec.ofInt 64 (-2)), s) else
  let (fd, fds) := Fds.procFdAlloc x.fds .consoleIn
  pure (some (BitVec.ofInt 64 fd), s.setFds x fds)

def sysFork (a : Around) (s : Entry) : Except Stop (Option U64 × Entry) :=
  if a.task = 0 ∨ a.kstack = 0 then do
    let sched ← (s.sys.scheduler a.layout).doFork a.task a.kstack 0
    pure (some (BitVec.ofInt 64 (-12)), { s with sys := { s.sys with sched := sched } })
  else do
    let k ← s.sys.kern a.layout
    let (cr3, k) ← k.vmmForkUserSpace
    let sys := s.sys.setMem k
    let sched ← (sys.scheduler a.layout).doFork a.task a.kstack cr3
    let y ← sched.get a.task
    pure (some y.pid, { s with sys := { sys with sched := sched } })

def sysExecve (a : Around) (s : Entry) (x : Task) (r : Regs) : Except Stop (Option U64 × Entry) := do
  let k ← s.sys.kern a.layout
  let (res, e) ← Exec.doExecve a.env a.layout.trampoline r.rdi ⟨k, s.sys.fs, { a.stack with cr3 := x.cr3 }⟩
  let sys ← s.sys.setKern a.layout e.kern
  let sys := { sys with fs := e.fs, sched := sys.sched.put sys.sched.current { x with cr3 := e.task.cr3 } }
  match res with
  | .failed n printed => pure (some (BitVec.ofInt 64 n), ⟨sys, { s.input with tty := s.input.tty.putc printed }⟩)
  | .launched _ _ => pure (none, { s with sys := sys })

/-- the pid that `wait4` returns, unless it has blocked -/
def reaped (s s' : Sched) : Option U64 :=
  if s'.log.length = s.log.length then none else
  match s'.log.head? with
  | some (.waited _ _ pid _) => some pid
  | _ => none

def sysWait4 (L : Layout) (s : Entry) (r : Regs) : Except Stop (Option U64 × Entry) := do
  let sched ← (s.sys.scheduler L).wait4Round r.rdi r.rsi
  let bs := match Sched.stored (s.sys.scheduler L) sched (.wait4 r.rdi r.rsi) with
    | some v => Kern.wordBytes v
    | none => []
  -- `schedule()` may have switched to another task, and so to its space
  let sys ← store L (s.sys.enter L sched) bs r.rsi
  pure (reaped s.sys.sched sched, { s with sys := sys })

/-- the cases of the `switch` -/
def call (a : Around) (r : Regs) (s : Entry) (x : Task) : Option Sysno → Except Stop (Option U64 × Entry)
  | some .exit => do
    let sched ← (s.sys.scheduler a.layout).sysExit r.rdi
    pure (none, { s with sys := s.sys.enter a.layout sched })
  | some .write => s.sysWrite a.layout x r
  | some .getpid => pure (some x.pid, s)
  | some .yield => pure (some 0, { s with sys := { s.sys with sched := s.sys.sched.taskYield } })
  | some .read => s.sysRead a.layout x r
  | some .close => pure (s.sysClose x r)
  | some .opn => s.sysOpen a.layout x r
  | some .fork => s.sysFork a
  | some .execve => s.sysExecve a x r
  | some .wait4 => s.sysWait4 a.layout r
  | none => pure (some (BitVec.ofInt 64 (-38)), s)

/-- `syscall_dispatch` -/
def syscallDispatch (a : Around) (r : Regs) (s : Entry) : Except Stop (Option U64 × Entry) := do
  let x ← s.sys.sched.get s.sys.sched.current
  s.call a r x (Sysno.ofRax r.rax)

/-! ## What the calls are given -/

/-- a string that goes on to the end of the user half, or begins beyond it -/
def PathOutside (L : Layout) (s : Entry) (path : U64) : Prop :=
  ∀ k, s.sys.kern L = .ok k → ∀ va : U64, path ≤ va → va < userEnd → ∃ b, k.readByte va = .ok b ∧ b ≠ 0

/-- the buffer, the path or the place for the status is not entirely inside the user half -/
def Outside (L : Layout) (s : Entry) (r : Regs) : Sysno → Prop
  | .write => r.rdx ≠ 0 ∧ userEnd.toNat < r.rsi.toNat + r.rdx.toNat
  | .read => r.rdx ≠ 0 ∧ userEnd.toNat < r.rsi.toNat + r.rdx.toNat
  | .opn => s.PathOutside L r.rdi
  | .execve => s.PathOutside L r.rdi
  | .wait4 => r.rsi ≠ 0 ∧ userEnd.toNat < r.rsi.toNat + 8
  | _ => False

/-- the call returns a negative number, and changes nothing -/
def Refused (s : Entry) (res : Except Stop (Option U64 × Entry)) : Prop :=
  ∃ v : U64, res = .ok (some v, s) ∧ v.toInt < 0

/-- a call that is given an address outside the user half is refused -/
def Confined (a : Around) (r : Regs) (s : Entry) : Prop :=
  ∀ n, Sysno.ofRax r.rax = some n → s.Outside a.layout r n → s.Refused (syscallDispatch a r s)

/-- the call does not come to the point of using the address, or is an `open` that fails after reading through it. No
`execve` and no `wait4` is spared. -/
def Spared (L : Layout) (r : Regs) (s : Entry) (x : Task) : Sysno → Prop
  | .write => Fds.procFdType x.fds (Fds.intArg r.rdi) ≠ .consoleOut
  | .read => Fds.procFdType x.fds (Fds.intArg r.rdi) ≠ .consoleIn
  | .opn => ∃ k, s.sys.kern L = .ok k ∧ (isConsole k r.rdi = .ok false ∨
      isConsole k r.rdi = .ok true ∧ ∀ i, (x.fds i).inUse = true)
  | _ => False

variable {L : Layout} {a : Around} {r : Regs} {s s' : Entry} {x : Task} {v : U64}

/-! ## The calls on the descriptors

When the bytes at the caller's pointer can be read, `write` and `open` are those of `Fds`. -/

theorem putBytes_eq {k : Kern} {buf : U64} {p : ℕ → Byte} {l : List ℕ} (tty : Tty)
    (h : ∀ i ∈ l, k.readByte (buf + BitVec.ofNat 64 i) = .ok (p i)) :
    l.foldlM (putByte k buf) tty = .ok (tty.putc (l.map p)) := by
  induction l generalizing tty with
  | nil => exact congrArg Except.ok (congrArg (Tty.mk _ _ _) (append_nil _).symm)
  | cons i l ih =>
    obtain ⟨hi, hl⟩ := forall_mem_cons.1 h
    refine foldlM_cons_ok.2 ⟨tty.putc [p i], bind_ok.2 ⟨p i, hi, rfl⟩, (ih _ hl).trans ?_⟩
    rw [Tty.putc, Tty.putc, Tty.putc, append_assoc]
    rfl

theorem sysWrite_fds {k : Kern} {p : ℕ → Byte} (hk : s.sys.kern L = .ok k)
    (h : ∀ i < r.rdx.toNat, k.readByte (r.rsi + BitVec.ofNat 64 i) = .ok (p i)) :
    s.sysWrite L x r = .ok (some (Fds.sysWrite x.fds r.rdi p r.rdx s.input.tty).1,
      { s with input := { s.input with tty := (Fds.sysWrite x.fds r.rdi p r.rdx s.input.tty).2 } }) := by
  unfold sysWrite Fds.sysWrite
  split_ifs
  · rfl
  · rw [hk, ok_bind, putBytes_eq _ fun i hi => h i (mem_range.1 hi)]
    rfl

theorem scan_fds {k : Kern} {path : U64} {p : ℕ → Byte} {cs : List Byte} {i : ℕ}
    (h : ∀ j ≤ Fds.scan p cs i, k.readByte (path + BitVec.ofNat 64 j) = .ok (p j)) :
    scan k path cs i = .ok (Fds.scan p cs i) := by
  induction cs generalizing i with
  | nil => rfl
  | cons c cs ih =>
    rw [scan, h i (Fds.le_scan p (c :: cs) i), ok_bind]
    rw [Fds.scan] at h ⊢
    split_ifs at h ⊢
    · rfl
    · exact ih h
    · rfl

theorem setFds_self (hx : s.sys.sched.tasks s.sys.sched.current = some x) : s.setFds x x.fds = s := by
  rw [setFds, Sched.put, ← hx, update_eq_self]

theorem sysOpen_fds {k : Kern} {p : ℕ → Byte} (hx : s.sys.sched.tasks s.sys.sched.current = some x)
    (hk : s.sys.kern L = .ok k)
    (h : ∀ i ≤ Fds.scan p Fds.cons 0, k.readByte (r.rdi + BitVec.ofNat 64 i) = .ok (p i)) :
    s.sysOpen L x r = .ok (some (Fds.sysOpen x.fds p).1, s.setFds x (Fds.sysOpen x.fds p).2) := by
  rw [sysOpen, hk, ok_bind, isConsole, scan_fds h, ok_bind, h _ le_rfl, ok_bind, pure_bind, Fds.sysOpen]
  dsimp only
  by_cases hfound : p (Fds.scan p Fds.cons 0) = 0 ∧ Fds.cons.getD (Fds.scan p Fds.cons 0) 0xFF#8 = 0
  · rw [decide_eq_true hfound, if_neg fun hc => not_and_or.2 hc hfound]
    rfl
  · rw [decide_eq_false hfound, if_pos (not_and_or.1 hfound)]
    exact congrArg (fun e => Except.ok (some (BitVec.ofInt 64 (-2)), e)) (setFds_self hx).symm

/-! ## `write`, `read` and `wait4` -/

theorem putBytes_length {k : Kern} {buf : U64} {l : List ℕ} {tty tty' : Tty}
    (h : l.foldlM (putByte k buf) tty = .ok tty') : tty'.echo.length = tty.echo.length + l.length := by
  induction l generalizing tty with
  | nil =>
    obtain rfl := pure_ok.1 h
    rfl
  | cons i l ih =>
    obtain ⟨tty1, h1, h⟩ := foldlM_cons_ok.1 h
    obtain ⟨b, _, h1⟩ := bind_ok.1 h1
    obtain rfl := pure_ok.1 h1
    rw [ih h, Tty.putc, length_append, length_cons, length_nil, length_cons]
    omega

theorem sysWrite_prints (hfd : Fds.procFdType x.fds (Fds.intArg r.rdi) = .consoleOut)
    (h : s.sysWrite L x r = .ok (some v, s')) : s'.input.tty.echo.length = s.input.tty.echo.length + r.rdx.toNat := by
  rw [sysWrite, if_neg (not_not.2 hfd)] at h
  obtain ⟨k, _, h⟩ := bind_ok.1 h
  obtain ⟨tty, h1, h⟩ := bind_ok.1 h
  obtain ⟨_, rfl⟩ := Prod.mk.inj (pure_ok.1 h)
  rw [putBytes_length h1, length_range]

theorem sysWrite_refused (hlen : r.rdx ≠ 0) :
    s.Refused (s.sysWrite L x r) ↔ Fds.procFdType x.fds (Fds.intArg r.rdi) ≠ .consoleOut := by
  constructor
  · rintro ⟨v, h, _⟩ hfd
    have := sysWrite_prints hfd h
    have hpos : r.rdx.toNat ≠ 0 := fun hc => hlen (BitVec.eq_of_toNat_eq hc)
    omega
  · intro hfd
    exact ⟨ebadf, by rw [sysWrite, if_pos hfd, pure_eq_ok], by decide⟩

theorem toInt_small {n : ℕ} (h : n < 2 ^ 32) : 0 ≤ (BitVec.ofNat 64 n).toInt := by
  rw [BitVec.toInt_eq_toNat_of_lt (by rw [BitVec.toNat_ofNat]; omega)]
  exact Int.natCast_nonneg _

theorem readline_lt (tty : Tty) (len : BitVec 32) : (tty.ttyReadline len).1 < 2 ^ 32 := by
  have := (len - 1).isLt
  unfold Tty.ttyReadline
  split_ifs
  · simp
  · assumption
  · dsimp only
    omega

theorem sysRead_nonneg (hfd : Fds.procFdType x.fds (Fds.intArg r.rdi) = .consoleIn)
    (h : s.sysRead L x r = .ok (some v, s')) : 0 ≤ v.toInt := by
  obtain ⟨sys, _, h⟩ := bind_ok.1 h
  have hv : some (s.input.sysRead x.fds r.rdi r.rdx).1 = some v := congrArg Prod.fst (pure_ok.1 h)
  rw [← Option.some.inj hv, Input.sysRead, if_neg (not_not.2 hfd)]
  split_ifs
  · exact toInt_small (n := 0) (by decide)
  · exact toInt_small (readline_lt _ _)

theorem sysRead_refused : s.Refused (s.sysRead L x r) ↔ Fds.procFdType x.fds (Fds.intArg r.rdi) ≠ .consoleIn := by
  constructor
  · rintro ⟨v, h, hv⟩ hfd
    have := sysRead_nonneg hfd h
    omega
  · intro hfd
    refine ⟨ebadf, ?_, by decide⟩
    simp only [sysRead, Input.sysRead, if_pos hfd, store, if_true, pure_eq_ok, ok_bind]
    rfl

/-- a call of `wait4` that returns has reaped a child -/
theorem wait4_not_refused : ¬ s.Refused (s.sysWait4 L r) := by
  rintro ⟨v, h, _⟩
  obtain ⟨sched, _, h⟩ := bind_ok.1 h
  obtain ⟨sys, h2, h⟩ := bind_ok.1 h
  obtain ⟨hv, hs⟩ := Prod.mk.inj (pure_ok.1 h)
  have hlog : sys.sched.log = sched.log := by
    unfold store at h2
    split_ifs at h2
    · obtain rfl := pure_ok.1 h2
      rfl
    · obtain ⟨k, _, h2⟩ := bind_ok.1 h2
      obtain ⟨k', _, h2⟩ := bind_ok.1 h2
      obtain rfl := pure_ok.1 h2
      rfl
  have hsame : sched.log = s.sys.sched.log := by
    rw [← hlog, ← congrArg (fun s : Entry => s.sys.sched.log) hs]
  rw [reaped, if_pos (congrArg List.length hsame)] at hv
  cases hv

/-! ## `open` and `execve` -/

theorem procFdAlloc_full {t : Fds} (type : FdType) (h : ∀ i, (t i).inUse = true) : t.procFdAlloc type = (-24, t) := by
  have hnone : (finRange procMaxFds).find? (fun i => !(t i).inUse) = none :=
    find?_eq_none.2 fun i _ => by simp [h i]
  rw [Fds.procFdAlloc, hnone]

theorem procFdAlloc_nonneg {t : Fds} (type : FdType) (h : ¬ ∀ i, (t i).inUse = true) :
    0 ≤ (BitVec.ofInt 64 (t.procFdAlloc type).1).toInt := by
  unfold Fds.procFdAlloc
  cases hf : (finRange procMaxFds).find? (fun i => !(t i).inUse) with
  | none =>
    refine absurd (fun i => ?_) h
    simpa using find?_eq_none.1 hf i (mem_finRange i)
  | some i =>
    dsimp only
    rw [BitVec.ofInt_natCast]
    exact toInt_small (i.2.trans (by decide))

theorem sysOpen_refused (hx : s.sys.sched.tasks s.sys.sched.current = some x) :
    s.Refused (s.sysOpen L x r) ↔ ∃ k, s.sys.kern L = .ok k ∧ (isConsole k r.rdi = .ok false ∨
      isConsole k r.rdi = .ok true ∧ ∀ i, (x.fds i).inUse = true) := by
  constructor
  · rintro ⟨v, h, hv⟩
    obtain ⟨k, hk, h⟩ := bind_ok.1 h
    obtain ⟨found, hfound, h⟩ := bind_ok.1 h
    refine ⟨k, hk, ?_⟩
    cases found with
    | false => exact Or.inl hfound
    | true =>
      refine Or.inr ⟨hfound, ?_⟩
      by_contra hfree
      have hfd : some (BitVec.ofInt 64 (Fds.procFdAlloc x.fds .consoleIn).1) = some v := congrArg Prod.fst (pure_ok.1 h)
      have := procFdAlloc_nonneg .consoleIn hfree
      rw [Option.some.inj hfd] at this
      omega
  · rintro ⟨k, hk, hfound | ⟨hfound, hfull⟩⟩
    · refine ⟨BitVec.ofInt 64 (-2), ?_, by decide⟩
      simp only [sysOpen, hk, hfound, ok_bind]
      rfl
    · refine ⟨BitVec.ofInt 64 (-24), ?_, by decide⟩
      simp only [sysOpen, hk, hfound, ok_bind, procFdAlloc_full _ hfull, setFds_self hx]
      rfl

/-- a failed `execve` prints the path it has copied -/
theorem execve_prints {trampoline upath : U64} {env : ExecEnv} {e e' : ExecState} {n : ℤ} {printed : List Byte}
    (h : Exec.doExecve env trampoline upath e = .ok (.failed n printed, e')) : ∃ copied what,
      Exec.copyPath e.kern 63 upath = .ok copied ∧
      printed = Exec.complaint what (Exec.pathString env.stale copied) := by
  obtain ⟨copied, hcopy, h⟩ := bind_ok.1 h
  obtain ⟨⟨o, e1⟩, _, h⟩ := bind_ok.1 h
  rcases o with _ | ⟨img, fromDisk⟩
  · exact ⟨copied, "no such program", hcopy, (ExecResult.failed.inj (Prod.mk.inj (pure_ok.1 h)).1).2.symm⟩
  obtain ⟨e2, _, h⟩ := bind_ok.1 h
  obtain ⟨⟨o, k⟩, _, h⟩ := bind_ok.1 h
  rcases o with _ | ⟨entry, rsp⟩
  · exact ⟨copied, "bad ELF", hcopy, (ExecResult.failed.inj (Prod.mk.inj (pure_ok.1 h)).1).2.symm⟩
  cases fromDisk with
  | true =>
    obtain ⟨⟨fs, k'⟩, -, h⟩ := bind_ok.1 h
    cases h
  | false => cases h

/-- an `execve` that returns has printed -/
theorem execve_not_refused : ¬ s.Refused (s.sysExecve a x r) := by
  rintro ⟨v, h, _⟩
  obtain ⟨k, _, h⟩ := bind_ok.1 h
  obtain ⟨⟨res, e⟩, he, h⟩ := bind_ok.1 h
  obtain ⟨sys, _, h⟩ := bind_ok.1 h
  cases res with
  | launched entry rsp => cases (Prod.mk.inj (pure_ok.1 h)).1
  | failed n printed =>
    have hecho := congrArg (fun s : Entry => s.input.tty.echo) (Prod.mk.inj (pure_ok.1 h)).2
    obtain ⟨copied, what, _, rfl⟩ := execve_prints he
    simp [Exec.complaint, Exec.text, Tty.putc] at hecho

/-! ## The dispatcher -/

theorem call_refused {n : Sysno} (hx : s.sys.sched.tasks s.sys.sched.current = some x) (hout : s.Outside a.layout r n) :
    s.Refused (s.call a r x (some n)) ↔ s.Spared a.layout r x n := by
  cases n with
  | write => exact sysWrite_refused hout.1
  | read => exact sysRead_refused
  | opn => exact sysOpen_refused hx
  | execve => exact iff_of_false execve_not_refused id
  | wait4 => exact iff_of_false wait4_not_refused id
  | exit | getpid | yield | close | fork => exact hout.elim

/-- **Confinement.** A call that is given an address outside the user half is refused and changes nothing exactly if it
does not come to use the address, or is an `open` that fails after reading through it. -/
theorem confined_iff (a : Around) (r : Regs) (s : Entry) : s.Confined a r ↔
    ∀ n, Sysno.ofRax r.rax = some n → s.Outside a.layout r n →
      ∃ x, s.sys.sched.tasks s.sys.sched.current = some x ∧ s.Spared a.layout r x n := by
  refine forall_congr' fun n => forall_congr' fun hn => forall_congr' fun hout => ?_
  cases hx : s.sys.sched.tasks s.sys.sched.current with
  | none =>
    have hget : s.sys.sched.get s.sys.sched.current = .error .wild := by rw [Sched.get, hx]
    refine iff_of_false ?_ ?_
    · rintro ⟨v, h, _⟩
      rw [syscallDispatch, hget] at h
      cases h
    · rintro ⟨x, hc, _⟩
      cases hc
  | some x =>
    have hcall : syscallDispatch a r s = s.call a r x (some n) := by
      rw [syscallDispatch, Sched.get_iff.2 hx, ok_bind, hn]
    rw [hcall, call_refused hx hout]
    refine ⟨fun h => ⟨x, rfl, h⟩, ?_⟩
    rintro ⟨y, hy, h⟩
    exact Option.some.inj hy ▸ h

/-! ## A byte of the kernel -/

/-- the first page of the HHDM, with `S` in it: the PML4 in page 1, three tables, and page 0. The variable `pml4` is in
page 6.
-/
def kernelPage : PhysMem := fun f i =>
  if f = 1 ∧ i = 256 then 0x2003#64 else
  if i = 0 then
    if f = 2 then 0x3003#64 else if f = 3 then 0x4003#64 else if f = 4 then 0x3#64 else if f = 0 then 0x53#64 else
    if f = 6 then 0xFFFF800000001000#64 else 0
  else 0

/-- a user task runs, on the space of that page -/
def sampleEntry : Entry where
  sys :=
    { sched := { Sched.statics 0 with
        tasks := fun t => if t = 0x2000 then
          some
            { Task.zero with pid := 2, cr3 := 0x1000, state := .running, isUser := true, fds := Fds.stdio, pc := .run }
          else none
        current := 0x2000
        space := 0x1000 }
      mem := kernelPage
      pmm := Tasks.emptyKern.pmm
      fs := Tasks.noFiles }
  input := ⟨⟨fun _ => 0, 0, 0⟩, Tty.cleared⟩

def sampleAround : Around where
  layout := ⟨0xFFFF800000000000, 0, ⟨0xFFFFFFFF80100000, 6, 0⟩, ⟨0xFFFFFFFF80100008, 6, 1⟩⟩
  env := Tasks.shEnv
  stack := Tasks.newTask
  task := 0
  kstack := 0

/-- `write(1, 0xFFFF800000000000, 1)` -/
def kernelWrite : Regs := ⟨1, 1, 0xFFFF800000000000, 1⟩

/-- **The call prints a byte of the kernel half.** -/
theorem kernel_byte_printed : ∃ s', sampleEntry.Outside sampleAround.layout kernelWrite .write ∧
    (sampleEntry.sys.kern sampleAround.layout).toOption.bind (fun k => (k.readByte 0xFFFF800000000000).toOption) =
      some 0x53 ∧
    syscallDispatch sampleAround kernelWrite sampleEntry = .ok (some 1, s') ∧ s'.input.tty.echo = [0x53] ∧
    ¬ sampleEntry.Confined sampleAround kernelWrite := by
  obtain ⟨s', hrun, hecho⟩ : ∃ s', syscallDispatch sampleAround kernelWrite sampleEntry = .ok (some 1, s') ∧
      s'.input.tty.echo = [0x53] := ⟨_, rfl, rfl⟩
  refine ⟨s', ⟨by decide, by decide⟩, rfl, hrun, hecho, fun h => ?_⟩
  obtain ⟨v, hv, _⟩ := h .write rfl ⟨by decide, by decide⟩
  rw [(Prod.mk.inj (Except.ok.inj (hrun.symm.trans hv))).2] at hecho
  exact absurd hecho (by decide)

end Entry

end Uix
