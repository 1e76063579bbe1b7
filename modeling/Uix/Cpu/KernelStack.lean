/-
Kernel stacks built by hand. `do_fork` (`src/core/cpu/fork.c`), `task_create` (`task.c`), `user_task_create` (`user.c`)
and `do_execve` (`exec.c`) write words to the top of a kernel stack; `switch_to`, the trampolines and `fork_child_stub`
(`src/arch/x86_64/switch.S`) and `isr_common` (`cpu.S`) read and write such words. Memory is bytes, addresses of code
are parameters.

- `forkStack_frame`, `pushWords_frame`: what the C functions leave on a stack.
- `switchTo_reaches`, `restore_reaches`, `userLaunch_reaches`: what the routines make of it.
- `kernel_stacks_agree`: the first run of a task ends up where its creator meant it to.
- `launch_words`: `do_execve` in `Exec` builds the same frame.
-/
import Uix.Cpu.ExecSpec
import Uix.Cpu.SwitchTo
import Uix.Lib.Routine

namespace Uix.Switch

open Machine Bytes X64 List Function

/-! ## The frames -/

/-- `struct iframe` -/
structure Iframe where
  rax : U64
  rcx : U64
  rdx : U64
  rbx : U64
  rbp : U64
  rsi : U64
  rdi : U64
  r8 : U64
  r9 : U64
  r10 : U64
  r11 : U64
  r12 : U64
  r13 : U64
  r14 : U64
  r15 : U64
  intNo : U64
  err : U64
  rip : U64
  cs : U64
  rflags : U64
  rsp : U64
  ss : U64

namespace Iframe

/-- its words in memory -/
def words (fr : Iframe) : List U64 :=
  [fr.rax, fr.rcx, fr.rdx, fr.rbx, fr.rbp, fr.rsi, fr.rdi, fr.r8, fr.r9, fr.r10, fr.r11, fr.r12, fr.r13, fr.r14, fr.r15,
    fr.intNo, fr.err, fr.rip, fr.cs, fr.rflags, fr.rsp, fr.ss]

/-- the field for a register -/
def reg (fr : Iframe) : Reg → U64
  | .rax => fr.rax | .rcx => fr.rcx | .rdx => fr.rdx | .rbx => fr.rbx | .rsp => fr.rsp | .rbp => fr.rbp | .rsi => fr.rsi
  | .rdi => fr.rdi | .r8 => fr.r8 | .r9 => fr.r9 | .r10 => fr.r10 | .r11 => fr.r11 | .r12 => fr.r12 | .r13 => fr.r13
  | .r14 => fr.r14 | .r15 => fr.r15

end Iframe

/-- `sizeof(struct iframe)` -/
def iframeSize : ℕ := 176

/-- `kstack_size` of every task -/
def kstackSize : U64 := 16 * 1024

/-- where the first word goes below -/
def stackTop (kstack : U64) : U64 := (kstack + kstackSize) &&& ~~~ 0xF#64

def memcpy (m : ℕ → BitVec 8) (dst src n : ℕ) : ℕ → BitVec 8 :=
  fun x => if dst ≤ x ∧ x < dst + n then m (src + (x - dst)) else m x

/-- `sp -= 8; *(u64 *)sp = w` for each word -/
def pushWords (sp : U64) (m : ℕ → BitVec 8) : List U64 → U64 × (ℕ → BitVec 8)
  | [] => (sp, m)
  | w :: ws => pushWords (sp - 8) (store m (sp - 8).toNat 8 w.toNat) ws

/-- the stack of a child in `do_fork`: the frame of the parent with `rax = 0`, and a frame for `switch_to` -/
def forkStack (stub kstack fr : U64) (m : ℕ → BitVec 8) : U64 × (ℕ → BitVec 8) :=
  let sp := stackTop kstack - BitVec.ofNat 64 iframeSize
  let m := memcpy m sp.toNat fr.toNat iframeSize
  let m := store m sp.toNat 8 0
  pushWords sp m [stub, 0, 0, 0, 0, 0, 0]

/-- the stack in `task_create` -/
def taskStack (trampoline fn arg kstack : U64) (m : ℕ → BitVec 8) : U64 × (ℕ → BitVec 8) :=
  pushWords (stackTop kstack) m [trampoline, 0, 0, fn, arg, 0, 0]

/-- the stack in `do_execve`, and in `user_task_create` with `USER_CODE_BASE` and `USER_STACK_TOP - 16` -/
def launchStack (trampoline entry rsp kstack : U64) (m : ℕ → BitVec 8) : U64 × (ℕ → BitVec 8) :=
  pushWords (stackTop kstack) m (Exec.launchFrame trampoline entry rsp)

/-! ## The routines -/

/-- the addresses of the routines -/
structure Symbols where
  switchTo : U64
  taskEntryTrampoline : U64
  userLaunchTrampoline : U64
  userEnter : U64
  forkChildStub : U64
  isrCommon : U64
  taskExit : U64
  isrDispatch : U64

/-- `task_entry_trampoline` -/
def taskEntryTrampoline (sym : Symbols) : List Insn :=
  [.basic (.mov .r13 .rdi), .callReg .r12, .call sym.taskExit, .hlt]

/-- `user_launch_trampoline` -/
def userLaunchTrampoline (sym : Symbols) : List Insn :=
  [.basic (.mov .r12 .rdi), .basic (.mov .r13 .rsi), .basic (.mov .r14 .rdx), .call sym.userEnter, .hlt]

/-- `user_enter` -/
def userEnter : List Insn :=
  [.cli, .pushImm 0x23, .basic (.push .rsi), .basic (.push .rdx), .pushImm 0x1b, .basic (.push .rdi),
    .movAx 0x23, .movSeg .ds, .movSeg .es, .movSeg .fs, .movSeg .gs, .iretq]

/-- the registers in the order in which `fork_child_stub` and `isr_common` pop them -/
def popOrder : List Reg :=
  [.rax, .rcx, .rdx, .rbx, .rbp, .rsi, .rdi, .r8, .r9, .r10, .r11, .r12, .r13, .r14, .r15]

/-- the registers in the order in which `isr_common` pushes them -/
def pushOrder : List Reg :=
  [.r15, .r14, .r13, .r12, .r11, .r10, .r9, .r8, .rdi, .rsi, .rbp, .rbx, .rdx, .rcx, .rax]

/-- `fork_child_stub` -/
def forkChildStub : List Insn := pops popOrder ++ ([.add 16 .rsp, .iretq] : List Insn)

/-- `isr_common` -/
def isrCommon (sym : Symbols) : List Insn :=
  pushes pushOrder ++ ([.basic (.mov .rsp .rdi), .call sym.isrDispatch] : List Insn) ++ pops popOrder ++
    ([.add 16 .rsp, .iretq] : List Insn)

/-- the routines lie at their addresses -/
structure Text (code : Code) (sym : Symbols) : Prop where
  switchTo : Laid code sym.switchTo (switchTo.map .basic)
  taskEntryTrampoline : Laid code sym.taskEntryTrampoline (taskEntryTrampoline sym)
  userLaunchTrampoline : Laid code sym.userLaunchTrampoline (userLaunchTrampoline sym)
  userEnter : Laid code sym.userEnter userEnter
  forkChildStub : Laid code sym.forkChildStub forkChildStub
  isrCommon : Laid code sym.isrCommon (isrCommon sym)

/-! ## What the C functions leave -/

section Build

variable {m m' : ℕ → BitVec 8} {sp kstack : U64} {ws : List U64} {a b n : ℕ}

theorem load_shift (h : ∀ i < n, m' (b + i) = m (a + i)) : load m' b n = load m a n := by
  induction n generalizing a b with
  | zero => rfl
  | succ n ih =>
    have h0 : m' b = m a := h 0 (by omega)
    rw [load, load, h0, ih fun i hi => ?_]
    rw [Nat.add_assoc, Nat.add_assoc, Nat.add_comm 1]
    exact h (i + 1) (by omega)

theorem frame_shift (hf : Frame m a ws) (h : ∀ i < 8 * ws.length, m' (b + i) = m (a + i)) : Frame m' b ws := by
  induction ws generalizing a b with
  | nil => trivial
  | cons w ws ih =>
    rw [length_cons] at h
    refine ⟨(load_shift fun i hi => h i (by omega)).trans hf.1, ih hf.2 fun i hi => ?_⟩
    rw [Nat.add_assoc, Nat.add_assoc, Nat.add_comm 8]
    exact h (i + 8) (by omega)

theorem pushWords_eq (c : Cpu) (ws : List U64) :
    pushWords (c.regs .rsp) c.mem ws = ((c.pushWords ws).regs .rsp, (c.pushWords ws).mem) := by
  induction ws generalizing c with
  | nil => rfl
  | cons w ws ih =>
    rw [Cpu.pushWords_cons, ← ih, pushWords]
    have hsp : (c.pushWord w).regs .rsp = c.regs .rsp - 8 := c.set_self .rsp _
    rw [hsp]
    rfl

/-- **Words stored downwards** from `sp`. -/
theorem pushWords_frame (h : 8 * ws.length ≤ sp.toNat) :
    (pushWords sp m ws).1.toNat + 8 * ws.length = sp.toNat ∧
    Frame (pushWords sp m ws).2 (pushWords sp m ws).1.toNat ws.reverse ∧
      ∀ x, sp.toNat ≤ x → (pushWords sp m ws).2 x = m x := by
  have P := @Cpu.pushWords_spec ⟨fun _ => sp, 0, m⟩ ws h
  have heq := pushWords_eq ⟨fun _ => sp, 0, m⟩ ws
  dsimp only at heq
  rw [heq]
  exact ⟨P.sp, P.frame, fun x hx => P.outside x (.inr hx)⟩

theorem toNat_stackTop (h : kstack.toNat + 16384 < 2 ^ 64) :
    (stackTop kstack).toNat = (kstack.toNat + 16384) / 16 * 16 := by
  rw [stackTop, Kern.toNat_align16, BitVec.toNat_add, show kstackSize.toNat = 16384 from rfl, Nat.mod_eq_of_lt h]

/-- a copy of a frame with `rax = 0`, and the words for `switch_to` below it -/
theorem childFrame {stub : U64} {fra : ℕ} {fr : Iframe} (h : 56 ≤ sp.toNat) (hfr : Frame m fra fr.words) :
    Frame (pushWords sp (store (memcpy m sp.toNat fra iframeSize) sp.toNat 8 0) [stub, 0, 0, 0, 0, 0, 0]).2
    (sp.toNat - 56)
      ([0, 0, 0, 0, 0, 0, stub] ++ { fr with rax := 0 }.words) := by
  obtain ⟨h1, h2, h3⟩ :=
    @pushWords_frame (store (memcpy m sp.toNat fra iframeSize) sp.toNat 8 0) sp [stub, 0, 0, 0, 0, 0, 0] h
  have hcopy : Frame (memcpy m sp.toNat fra iframeSize) sp.toNat fr.words := by
    refine frame_shift hfr fun i hi => ?_
    rw [show fr.words.length = 22 from rfl] at hi
    rw [memcpy, iframeSize, if_pos (by omega), Nat.add_sub_cancel_left]
  generalize pushWords sp _ [stub, 0, 0, 0, 0, 0, 0] = r at h1 h2 h3
  rw [show [stub, 0, 0, 0, 0, 0, 0].length = 7 from rfl] at h1
  rw [← h1, Nat.add_sub_cancel, frame_append]
  refine ⟨h2, ?_⟩
  rw [show [0, 0, 0, 0, 0, 0, stub].length = 7 from rfl, h1]
  refine Frame.congr ?_ fun x hx _ => h3 x hx
  exact ⟨load_store_eq (by decide), hcopy.2.congr fun x hx _ => store_of_lt (.inr hx)⟩

/-- **The stack of a child.** -/
theorem forkStack_frame {stub fra : U64} {fr : Iframe} (h : kstack.toNat + 16384 < 2 ^ 64)
    (hfr : Frame m fra.toNat fr.words) : (forkStack stub kstack fra m).1.toNat + 232 = (stackTop kstack).toNat ∧
      Frame (forkStack stub kstack fra m).2 (forkStack stub kstack fra m).1.toNat
        ([0, 0, 0, 0, 0, 0, stub] ++ { fr with rax := 0 }.words) := by
  have htop := toNat_stackTop h
  have hsp : (stackTop kstack - BitVec.ofNat 64 iframeSize).toNat + 176 = (stackTop kstack).toNat := by
    rw [BitVec.toNat_sub_of_le (BitVec.le_def.2 (by rw [BitVec.toNat_ofNat, iframeSize]; omega)), BitVec.toNat_ofNat,
      iframeSize]
    omega
  have hroom : 56 ≤ (stackTop kstack - BitVec.ofNat 64 iframeSize).toNat := by omega
  have hframe := @childFrame m (stackTop kstack - BitVec.ofNat 64 iframeSize) stub fra.toNat fr hroom hfr
  have hpush := @pushWords_frame
    (store (memcpy m (stackTop kstack - BitVec.ofNat 64 iframeSize).toNat fra.toNat iframeSize)
    (stackTop kstack - BitVec.ofNat 64 iframeSize).toNat 8 0) _ [stub, 0, 0, 0, 0, 0, 0] hroom
  simp only [forkStack]
  generalize stackTop kstack - BitVec.ofNat 64 iframeSize = sp at hsp hroom hframe hpush ⊢
  generalize pushWords sp _ [stub, 0, 0, 0, 0, 0, 0] = r at hframe hpush ⊢
  rw [show [stub, 0, 0, 0, 0, 0, 0].length = 7 from rfl] at hpush
  rw [show r.1.toNat = sp.toNat - 56 by omega]
  exact ⟨by omega, hframe⟩

end Build

/-! ## What the routines make of it -/

/-- the processor `c` calls `switch_to` for a task with `n` bytes in use from its stack pointer `sp` on: what the call
stores lies elsewhere -/
structure Calls (c : Cpu) (sp : U64) (n : ℕ) : Prop where
  next : c.regs .rsi = sp
  room : switchBytes ≤ c.sp
  own : Apart (c.regs .rdi).toNat 8 (c.sp - switchBytes) switchBytes
  stack : Apart (c.sp - switchBytes) switchBytes sp.toNat n
  cell : Apart (c.regs .rdi).toNat 8 sp.toNat n

/-- the processor at the start of `switch_to`, with nothing read so far -/
def calling (sym : Symbols) (c : Cpu) (ret : U64) (seg : Seg → BitVec 16) (interrupts : Bool) : Mach :=
  Mach.jump ⟨c.pushWord ret, seg, interrupts, []⟩ sym.switchTo

/-- the processor is at an `iretq`, with these five words on the stack -/
structure AtIretq (code : Code) (s : Mach) (rip cs rflags rsp ss : U64) : Prop where
  insn : ∃ len, code s.cpu.rip = some (.iretq, len)
  frame : Frame s.cpu.mem s.cpu.sp [rip, cs, rflags, rsp, ss]

/-- all words read so far, and the `n` bytes from the stack pointer on, are in the kernel stack -/
def ReadsIn (kstack : U64) (s : Mach) (n : ℕ) : Prop :=
  (∀ x ∈ s.reads, kstack.toNat ≤ x ∧ x + 8 ≤ kstack.toNat + 16384) ∧ kstack.toNat ≤ s.cpu.sp ∧
    s.cpu.sp + n ≤ kstack.toNat + 16384

section Run

variable {code : Code} {sym : Symbols} {c : Cpu} {sp ret w : U64} {seg : Seg → BitVec 16} {interrupts : Bool}
  {vs : List U64} {n : ℕ} {s : Mach} {fr : Iframe} {rest : List Insn}

theorem effect_basics (c : Cpu) (reads : List ℕ) (i j : Instr) (hi : i.reads c = []) (hj : j.reads (c.exec i) = []) :
    [Insn.basic i, .basic j].foldl Mach.effect ⟨c, seg, interrupts, reads⟩ =
    ⟨(c.exec i).exec j, seg, interrupts, reads⟩ := by
  change (⟨(c.exec i).exec j, seg, interrupts, j.reads (c.exec i) ++ (i.reads c ++ reads)⟩ : Mach) = _
  rw [hi, hj, nil_append, nil_append]

theorem effect_ret (s : Mach) (a : U64) :
    (s.jump a).effect (.basic .ret) = ⟨s.cpu.exec .ret, s.seg, s.interrupts, s.cpu.sp :: s.reads⟩ := by
  obtain ⟨⟨regs, rip, mem⟩, seg, interrupts, reads⟩ := s
  rfl

/-- what `switch_to` executes and reads -/
theorem switchTo_run (T : Laid code sym.switchTo (switchTo.map .basic))
    (hwrap : (halfway c ret).sp + switchBytes < 2 ^ 64) :
    ∃ reads, Reaches code (calling sym c ret seg interrupts) ⟨callSwitchTo c ret, seg, interrupts,
        ((halfway c ret).run (calleeSaved.reverse.map .pop)).sp :: reads⟩ ∧
      ∀ x ∈ reads, (halfway c ret).sp ≤ x ∧ x + 8 ≤ (halfway c ret).sp + 48 := by
  -- all but the `ret` goes straight through
  have hsplit : switchTo.map Insn.basic =
    (pushes calleeSaved ++ ([.basic (.movTo .rsp .rdi), .basic (.mov .rsi .rsp)] : List Insn) ++
    pops calleeSaved.reverse) ++ ([.basic .ret] : List Insn) := rfl
  rw [hsplit] at T
  have hstraight : ∀ i ∈ pushes calleeSaved ++ ([.basic (.movTo .rsp .rdi), .basic (.mov .rsi .rsp)] : List Insn) ++
      pops calleeSaved.reverse, i.straight = true := by decide
  obtain ⟨a, hlaid, hrun⟩ := @reaches_straight code (calling sym c ret seg interrupts) _ _ hstraight T
  have hcount : calleeSaved.reverse.length = 6 := rfl
  rw [switchBytes] at hwrap
  have hpopwrap : (halfway c ret).sp + 8 * calleeSaved.reverse.length < 2 ^ 64 := by omega
  obtain ⟨reads, hpops, hreads⟩ :=
    @foldl_effect_pop ⟨halfway c ret, seg, interrupts, []⟩ calleeSaved.reverse (by decide) hpopwrap
  rw [calling, foldl_effect_jump hstraight, Mach.jump_jump, foldl_append, foldl_append, foldl_effect_push,
    effect_basics _ _ _ _ rfl rfl, ← halfway, hpops] at hrun
  have hret := @reaches_ret code
    (Mach.jump ⟨(halfway c ret).run (calleeSaved.reverse.map .pop), seg, interrupts, reads⟩ a) [] hlaid
  rw [effect_ret] at hret
  rw [callSwitchTo_eq]
  refine ⟨reads, hrun.trans hret, fun x hx => ?_⟩
  rw [hcount] at hreads
  exact (hreads x hx).resolve_left not_mem_nil

/-- **`switch_to`** takes six registers and the place to go on from the stack of the next task. -/
theorem switchTo_reaches (T : Laid code sym.switchTo (switchTo.map .basic)) (hc : Calls c sp n) (hn : switchBytes ≤ n)
    (hlen : vs.length = 6) (hwrap : sp.toNat + switchBytes < 2 ^ 64) (hframe : Frame c.mem sp.toNat (vs ++ [w])) :
    ∃ s, Reaches code (calling sym c ret seg interrupts) s ∧ s.cpu.rip = w ∧ s.cpu.sp = sp.toNat + switchBytes ∧
      (∀ p ∈ calleeSaved.reverse.zip vs, s.cpu.regs p.1 = p.2) ∧
      (∀ x, sp.toNat ≤ x → x < sp.toNat + n → s.cpu.mem x = c.mem x) ∧
      ∀ x ∈ s.reads, sp.toNat ≤ x ∧ x + 8 ≤ sp.toNat + switchBytes := by
  obtain ⟨S, hsp⟩ := halfway_spec ret hc.room hc.own
  rw [hc.next] at hsp
  have hstack := hc.stack
  have hcell := hc.cell
  have hroom := hc.room
  rw [Apart] at hstack hcell
  have hkept : ∀ x, sp.toNat ≤ x → x < sp.toNat + n → (halfway c ret).mem x = c.mem x := fun x h1 h2 =>
    S.outside x (by omega) (by omega)
  have hframe' : Frame (halfway c ret).mem (halfway c ret).sp (vs ++ [w]) := by
    rw [hsp]
    refine hframe.congr fun x h1 h2 => hkept x h1 ?_
    rw [length_append, hlen, length_singleton] at h2
    rw [switchBytes] at hn
    omega
  obtain ⟨hsp', hrip, hregs⟩ := callSwitchTo_loads hlen (by rw [hsp]; exact hwrap) hframe'
  obtain ⟨reads, hrun, hreads⟩ := @switchTo_run code sym c ret seg interrupts T (by rw [hsp]; exact hwrap)
  have hcount : calleeSaved.reverse.length = 6 := rfl
  have hsp6 := (@Cpu.run_pop (halfway c ret) vs calleeSaved.reverse (by decide) (by decide) hlen.symm (by
    rw [hsp, hcount]
    rw [switchBytes] at hwrap
    omega) (frame_append.1 hframe').1).sp
  rw [hcount] at hsp6
  rw [hsp] at hsp' hreads hsp6
  refine ⟨_, hrun, hrip, hsp', hregs, fun x h1 h2 => ?_, fun x hx => ?_⟩
  · rw [← hkept x h1 h2, ← callSwitchTo_mem]
  · rw [switchBytes]
    rcases mem_cons.1 hx with hx | hx
    · rw [hx, hsp6]
      omega
    · have := hreads x hx
      omega

theorem mem_zip_map {α β : Type} (f : α → β) {l : List α} {a : α} (h : a ∈ l) : (a, f a) ∈ l.zip (l.map f) := by
  induction l with
  | nil => exact absurd h not_mem_nil
  | cons b l ih =>
    rw [map_cons, zip_cons_cons]
    rcases mem_cons.1 h with rfl | h
    · exact mem_cons_self
    · exact mem_cons_of_mem _ (ih h)

theorem mem_popOrder : ∀ r : Reg, r ≠ .rsp → r ∈ popOrder := by
  intro r hr
  cases r <;> first | decide | exact absurd rfl hr

/-- **Fifteen registers popped**, two words dropped: the end of `fork_child_stub` and of `isr_common`. -/
theorem restore_reaches (h : Laid code s.cpu.rip forkChildStub) (hframe : Frame s.cpu.mem s.cpu.sp fr.words)
    (hwrap : s.cpu.sp + iframeSize < 2 ^ 64) :
    ∃ t, Reaches code s t ∧ AtIretq code t fr.rip fr.cs fr.rflags fr.rsp fr.ss ∧
    (∀ r, r ≠ .rsp → t.cpu.regs r = fr.reg r) ∧
      t.cpu.sp = s.cpu.sp + 136 ∧ ∀ x ∈ t.reads, x ∈ s.reads ∨ s.cpu.sp ≤ x ∧ x + 8 ≤ s.cpu.sp + 120 := by
  rw [iframeSize] at hwrap
  have hcount : popOrder.length = 15 := rfl
  have hsplit : forkChildStub = (pops popOrder ++ ([.add 16 .rsp] : List Insn)) ++ ([.iretq] : List Insn) := by
    rw [forkChildStub, append_assoc]
    rfl
  rw [hsplit] at h
  obtain ⟨a, ⟨len, hcode, -⟩, hrun⟩ := reaches_straight (by decide) h
  obtain ⟨reads, hpops, hreads⟩ := @foldl_effect_pop s popOrder (by decide) (by omega)
  rw [foldl_append, hpops] at hrun
  have hwords : fr.words =
      popOrder.map fr.reg ++ ([fr.intNo, fr.err] ++ [fr.rip, fr.cs, fr.rflags, fr.rsp, fr.ss]) := rfl
  rw [hwords, frame_append, frame_append, length_map, hcount] at hframe
  obtain ⟨hregs, -, hiret⟩ := hframe
  have Q := @Cpu.run_pop s.cpu (popOrder.map fr.reg) popOrder (by decide) (by decide) (by rw [length_map])
    (by omega) hregs
  generalize s.cpu.run (popOrder.map .pop) = c1 at Q hrun
  have hsp1 := Q.sp
  have hsp : (c1.regs .rsp + 16).toNat = s.cpu.sp + 136 := by
    rw [BitVec.toNat_add, show (c1.regs .rsp).toNat = c1.sp from rfl, hsp1, hcount,
      show (16 : BitVec 64).toNat = 16 from rfl]
    exact Nat.mod_eq_of_lt (by omega)
  have hset : (c1.set .rsp (c1.regs .rsp + 16)).sp = s.cpu.sp + 136 := by rw [Cpu.sp, Cpu.set_self, hsp]
  refine ⟨_, hrun, ⟨⟨len, hcode⟩, ?_⟩, fun r hr => ?_, hset, fun x hx => ?_⟩
  · change Frame c1.mem (c1.set .rsp (c1.regs .rsp + 16)).sp _
    rw [hset, Q.mem]
    exact hiret
  · change (c1.set .rsp (c1.regs .rsp + 16)).regs r = _
    rw [Cpu.set_of_ne _ hr]
    exact Q.regs _ (mem_zip_map fr.reg (mem_popOrder r hr))
  · rw [hcount] at hreads
    exact hreads x hx

theorem setWidth_ax (x : U64) (v : BitVec 16) : ((x &&& ~~~ 0xFFFF#64) ||| v.setWidth 64).setWidth 16 = v := by
  apply BitVec.eq_of_getLsbD_eq
  intro i hi
  simp [hi]

/-- the five words are the arguments as they were at the start -/
theorem effect_enterWords (s : Mach) :
    [Insn.cli, .pushImm 0x23, .basic (.push .rsi), .basic (.push .rdx), .pushImm 0x1b, .basic (.push .rdi)].foldl
    Mach.effect s =
      ⟨s.cpu.pushWords [0x23, s.cpu.regs .rsi, s.cpu.regs .rdx, 0x1b, s.cpu.regs .rdi], s.seg, false, s.reads⟩ := by
  have hregs : ∀ (c : Cpu) (v : U64) {r : Reg}, r ≠ .rsp → (c.pushWord v).regs r = c.regs r :=
    fun _ _ _ hr => Cpu.pushWord_regs hr
  simp (disch := decide) only [foldl_cons, foldl_nil, Mach.effect_cli, Mach.effect_pushImm, Mach.effect_push,
    Cpu.pushWords_cons, hregs]
  rfl

theorem effect_segments (s : Mach) (v : BitVec 16) :
    ∃ x, [Insn.movAx v, .movSeg .ds, .movSeg .es, .movSeg .fs, .movSeg .gs].foldl Mach.effect s =
      ⟨s.cpu.set .rax x, fun _ => v, s.interrupts, s.reads⟩ := by
  refine ⟨(s.cpu.regs .rax &&& ~~~ 0xFFFF#64) ||| v.setWidth 64, ?_⟩
  simp only [foldl_cons, foldl_nil, Mach.effect_movAx, Mach.effect_movSeg, Cpu.set_self, setWidth_ax,
    Mach.mk.injEq, true_and, and_true]
  funext g
  cases g <;> rfl

/-- **`user_enter`** builds the frame of `iretq` from its arguments. -/
theorem userEnter_reaches (h : Laid code s.cpu.rip userEnter) (hroom : 40 ≤ s.cpu.sp) :
    ∃ t, Reaches code s t ∧ AtIretq code t (s.cpu.regs .rdi) 0x1b (s.cpu.regs .rdx) (s.cpu.regs .rsi) 0x23 ∧
      t.cpu.sp + 40 = s.cpu.sp ∧ t.reads = s.reads ∧ t.interrupts = false ∧ ∀ g, t.seg g = 0x23 := by
  have hsplit : userEnter = (([.cli, .pushImm 0x23, .basic (.push .rsi), .basic (.push .rdx), .pushImm 0x1b,
    .basic (.push .rdi)] : List Insn) ++
    ([.movAx 0x23, .movSeg .ds, .movSeg .es, .movSeg .fs, .movSeg .gs] : List Insn)) ++ ([.iretq] : List Insn) := rfl
  rw [hsplit] at h
  obtain ⟨a, ⟨len, hcode, -⟩, hrun⟩ := reaches_straight (by decide) h
  have P := @Cpu.pushWords_spec s.cpu [0x23, s.cpu.regs .rsi, s.cpu.regs .rdx, 0x1b, s.cpu.regs .rdi] hroom
  rw [foldl_append, effect_enterWords] at hrun
  obtain ⟨x, hsegs⟩ := effect_segments ⟨_, s.seg, false, s.reads⟩ 0x23
  rw [hsegs] at hrun
  generalize s.cpu.pushWords _ = c1 at P hrun
  have hsp : (c1.set .rax x).sp = c1.sp := congrArg BitVec.toNat (c1.set_of_ne (by decide) x)
  refine ⟨_, hrun, ⟨⟨len, hcode⟩, ?_⟩, ?_, rfl, rfl, fun _ => rfl⟩
  · change Frame c1.mem (c1.set .rax x).sp _
    rw [hsp]
    exact P.frame
  · change (c1.set .rax x).sp + 40 = _
    rw [hsp]
    exact P.sp

/-- **`user_launch_trampoline`** enters ring 3 with what `r12`, `r13` and `r14` hold. -/
theorem userLaunch_reaches (T : Text code sym) (hrip : s.cpu.rip = sym.userLaunchTrampoline) (hroom : 48 ≤ s.cpu.sp) :
    ∃ t, Reaches code s t ∧ AtIretq code t (s.cpu.regs .r12) 0x1b (s.cpu.regs .r14) (s.cpu.regs .r13) 0x23 ∧
      t.cpu.sp + 48 = s.cpu.sp ∧ t.reads = s.reads := by
  have h := T.userLaunchTrampoline
  rw [← hrip] at h
  obtain ⟨a, hlaid, hmovs⟩ :=
    @reaches_straight code s [.basic (.mov .r12 .rdi), .basic (.mov .r13 .rsi), .basic (.mov .r14 .rdx)]
    [.call sym.userEnter, .hlt] (by decide) h
  simp only [foldl_cons, foldl_nil, Mach.effect_mov] at hmovs
  generalize hc1 : ((s.cpu.set .rdi (s.cpu.regs .r12)).set .rsi _).set .rdx _ = c1 at hmovs
  have hsp : c1.sp = s.cpu.sp := by
    rw [← hc1]
    rfl
  have hregs : c1.regs .rdi = s.cpu.regs .r12 ∧ c1.regs .rsi = s.cpu.regs .r13 ∧ c1.regs .rdx = s.cpu.regs .r14 := by
    rw [← hc1]
    exact ⟨rfl, rfl, rfl⟩
  obtain ⟨ret, -, hcall⟩ := @reaches_call code (Mach.jump ⟨c1, s.seg, s.interrupts, s.reads⟩ a) _ _ hlaid
  have hpush := @Cpu.pushWord_sp c1 ret (by omega)
  obtain ⟨t, henter, hiret, htsp, hreads, -⟩ := @userEnter_reaches code
    (Mach.jump ⟨c1.pushWord ret, s.seg, s.interrupts, s.reads⟩ sym.userEnter) T.userEnter (by
      change 40 ≤ (c1.pushWord ret).sp
      omega)
  change AtIretq code t ((c1.pushWord ret).regs .rdi) 0x1b ((c1.pushWord ret).regs .rdx) ((c1.pushWord ret).regs .rsi)
    0x23 at hiret
  change t.cpu.sp + 40 = (c1.pushWord ret).sp at htsp
  rw [Cpu.pushWord_regs (by decide), Cpu.pushWord_regs (by decide), Cpu.pushWord_regs (by decide), hregs.1, hregs.2.1,
    hregs.2.2] at hiret
  exact ⟨t, (hmovs.trans hcall).trans henter, hiret, by omega, hreads⟩

/-- **`task_entry_trampoline`** calls `r12` with `r13`, and `task_exit` after it. -/
theorem taskEntry_reaches (T : Text code sym) (hrip : s.cpu.rip = sym.taskEntryTrampoline) (hroom : 8 ≤ s.cpu.sp) :
    ∃ t, Reaches code s t ∧ t.cpu.rip = s.cpu.regs .r12 ∧ t.cpu.regs .rdi = s.cpu.regs .r13 ∧
      Laid code t.cpu.top [.call sym.taskExit, .hlt] ∧ t.cpu.sp + 8 = s.cpu.sp ∧ t.reads = s.reads := by
  have h := T.taskEntryTrampoline
  rw [← hrip] at h
  obtain ⟨a, hlaid, hmov⟩ :=
    @reaches_straight code s [.basic (.mov .r13 .rdi)] [.callReg .r12, .call sym.taskExit, .hlt] (by decide) h
  simp only [foldl_cons, foldl_nil, Mach.effect_mov] at hmov
  generalize hc1 : s.cpu.set .rdi (s.cpu.regs .r13) = c1 at hmov
  have hsp : c1.sp = s.cpu.sp := by
    rw [← hc1]
    rfl
  have hregs : c1.regs .rdi = s.cpu.regs .r13 ∧ c1.regs .r12 = s.cpu.regs .r12 := by
    rw [← hc1]
    exact ⟨rfl, rfl⟩
  obtain ⟨ret, hlaid, hcall⟩ := @reaches_callReg code (Mach.jump ⟨c1, s.seg, s.interrupts, s.reads⟩ a) _ _ hlaid
  have P := @Cpu.pushWords_spec c1 [ret] (by rw [length_singleton]; omega)
  refine ⟨_, hmov.trans hcall, hregs.2, ?_, ?_, ?_, rfl⟩
  · exact (P.regs .rdi (by decide)).trans hregs.1
  · have htop : (c1.pushWord ret).top = ret := Cpu.top_of_frame P.frame
    change Laid code (c1.pushWord ret).top _
    rw [htop]
    exact hlaid
  · rw [← hsp]
    exact P.sp

end Run

/-! ## The first run of a task -/

section Launch

variable {code : Code} {sym : Symbols} {c : Cpu} {sp ret kstack : U64} {seg : Seg → BitVec 16} {interrupts : Bool}
  {m : ℕ → BitVec 8}

/-- what was read lies in the stack -/
theorem readsIn_of {s : Mach} {n : ℕ} (hk : kstack.toNat + 16384 < 2 ^ 64)
    (hlow : (stackTop kstack).toNat ≤ sp.toNat + 232)
    (hreads : ∀ x ∈ s.reads, sp.toNat ≤ x ∧ x + 8 ≤ (stackTop kstack).toNat)
    (hsp : sp.toNat ≤ s.cpu.sp ∧ s.cpu.sp + n ≤ (stackTop kstack).toNat) : ReadsIn kstack s n := by
  have htop := toNat_stackTop hk
  refine ⟨fun x hx => ?_, by omega, by omega⟩
  have := hreads x hx
  omega

/-- **The child of a fork** goes on where its parent was, with 0 for a result. -/
theorem fork_reaches {fr : Iframe} {fra : U64} (T : Text code sym) (hk : kstack.toNat + 16384 < 2 ^ 64)
    (hfr : Frame m fra.toNat fr.words) (hsp : (forkStack sym.forkChildStub kstack fra m).1 = sp) (hc : Calls c sp 232)
    (hmem : ∀ x, sp.toNat ≤ x → x < sp.toNat + 232 → c.mem x = (forkStack sym.forkChildStub kstack fra m).2 x) :
    ∃ t, Reaches code (calling sym c ret seg interrupts) t ∧ AtIretq code t fr.rip fr.cs fr.rflags fr.rsp fr.ss ∧
      (∀ r, r ≠ .rsp → t.cpu.regs r = if r = .rax then 0 else fr.reg r) ∧ ReadsIn kstack t 40 := by
  obtain ⟨hroom, hframe⟩ := @forkStack_frame m kstack sym.forkChildStub fra fr hk hfr
  rw [hsp] at hroom hframe
  have htop := toNat_stackTop hk
  have hframe' : Frame c.mem sp.toNat (([0, 0, 0, 0, 0, 0] ++ [sym.forkChildStub]) ++ { fr with rax := 0 }.words) :=
    hframe.congr hmem
  obtain ⟨hswitch, hrest⟩ := frame_append.1 hframe'
  obtain ⟨s, hrun, hrip, hssp, -, hkept, hreads⟩ := @switchTo_reaches code sym c sp ret sym.forkChildStub seg interrupts
    [0, 0, 0, 0, 0, 0] 232 T.switchTo hc (by decide) rfl (by rw [switchBytes]; omega) hswitch
  rw [switchBytes] at hssp hreads
  have hwords : Frame s.cpu.mem s.cpu.sp { fr with rax := 0 }.words := by
    rw [hssp]
    refine hrest.congr fun x h1 h2 => hkept x ?_ ?_
    · change sp.toNat + 8 * 7 ≤ x at h1
      omega
    · change x < sp.toNat + 8 * 7 + 8 * 22 at h2
      omega
  have hstub := T.forkChildStub
  rw [← hrip] at hstub
  obtain ⟨t, hrun', hiret, hregs, htsp, hreads'⟩ := restore_reaches hstub hwords (by rw [iframeSize]; omega)
  refine ⟨t, hrun.trans hrun', hiret,
    fun r hr => ?_, @readsIn_of sp kstack t 40 hk (by omega) (fun x hx => ?_) (by omega)⟩
  · rw [hregs r hr]
    cases r <;> rfl
  · rcases hreads' x hx with hx | hx
    · have := hreads x hx
      omega
    · omega

/-- a frame for `switch_to` at the top of the stack -/
theorem topFrame {ws : List U64} (hk : kstack.toNat + 16384 < 2 ^ 64) (hlen : ws.length = 7)
    (hsp : (pushWords (stackTop kstack) m ws).1 = sp)
    (hmem : ∀ x, sp.toNat ≤ x → x < sp.toNat + 56 → c.mem x = (pushWords (stackTop kstack) m ws).2 x) :
    sp.toNat + 56 = (stackTop kstack).toNat ∧ Frame c.mem sp.toNat ws.reverse := by
  have htop := toNat_stackTop hk
  obtain ⟨hroom, hframe, -⟩ := @pushWords_frame m (stackTop kstack) ws (by omega)
  rw [hsp, hlen] at hroom
  rw [hsp] at hframe
  refine ⟨hroom, hframe.congr fun x h1 h2 => hmem x h1 ?_⟩
  rw [length_reverse, hlen] at h2
  exact h2

/-- **A kernel task** calls its function. -/
theorem task_reaches {fn arg : U64} (T : Text code sym) (hk : kstack.toNat + 16384 < 2 ^ 64) (hc : Calls c sp 56)
    (hroom : sp.toNat + 56 = (stackTop kstack).toNat)
    (hframe : Frame c.mem sp.toNat ([0, 0, arg, fn, 0, 0] ++ [sym.taskEntryTrampoline])) :
    ∃ t, Reaches code (calling sym c ret seg interrupts) t ∧ t.cpu.rip = fn ∧ t.cpu.regs .rdi = arg ∧
      Laid code t.cpu.top [.call sym.taskExit, .hlt] ∧ ReadsIn kstack t 8 := by
  have htop := toNat_stackTop hk
  obtain ⟨s, hrun, hrip, hssp, hregs, -, hreads⟩ :=
    @switchTo_reaches code sym c sp ret sym.taskEntryTrampoline seg interrupts
    [0, 0, arg, fn, 0, 0] 56 T.switchTo hc (by decide) rfl (by rw [switchBytes]; omega) hframe
  rw [switchBytes] at hssp hreads
  obtain ⟨t, hrun', htrip, hrdi, hlaid, htsp, htreads⟩ := taskEntry_reaches T hrip (by omega)
  rw [hregs (.r12, fn) (by simp [calleeSaved])] at htrip
  rw [hregs (.r13, arg) (by simp [calleeSaved])] at hrdi
  refine ⟨t, hrun.trans hrun', htrip, hrdi, hlaid, @readsIn_of sp kstack t 8 hk (by omega) (fun x hx => ?_) (by omega)⟩
  rw [htreads] at hx
  have := hreads x hx
  omega

/-- **A program** is entered at its entry point, on its stack. -/
theorem launch_reaches {entry rsp : U64} (T : Text code sym) (hk : kstack.toNat + 16384 < 2 ^ 64) (hc : Calls c sp 56)
    (hroom : sp.toNat + 56 = (stackTop kstack).toNat)
    (hframe : Frame c.mem sp.toNat ([0, 0x202, rsp, entry, 0, 0] ++ [sym.userLaunchTrampoline])) :
    ∃ t, Reaches code (calling sym c ret seg interrupts) t ∧ AtIretq code t entry 0x1b 0x202 rsp 0x23 ∧
    ReadsIn kstack t 40 := by
  have htop := toNat_stackTop hk
  obtain ⟨s, hrun, hrip, hssp, hregs, -, hreads⟩ :=
    @switchTo_reaches code sym c sp ret sym.userLaunchTrampoline seg interrupts
    [0, 0x202, rsp, entry, 0, 0] 56 T.switchTo hc (by decide) rfl (by rw [switchBytes]; omega) hframe
  rw [switchBytes] at hssp hreads
  obtain ⟨t, hrun', hiret, htsp, htreads⟩ := userLaunch_reaches T hrip (by omega)
  rw [hregs (.r12, entry) (by simp [calleeSaved]), hregs (.r13, rsp) (by simp [calleeSaved]),
    hregs (.r14, 0x202) (by simp [calleeSaved])] at hiret
  refine ⟨t, hrun.trans hrun', hiret, @readsIn_of sp kstack t 40 hk (by omega) (fun x hx => ?_) (by omega)⟩
  rw [htreads] at hx
  have := hreads x hx
  omega

/-- the word memory of `Exec` after words stored downwards: word `i` is `i + 1` words below `sp`, and all else is as
before -/
theorem execPush_spec {ws : List U64} {sp : U64} {st : U64 → U64} (h : 8 * ws.length < 2 ^ 64) :
    (Exec.pushWords sp st ws).1 = sp - BitVec.ofNat 64 (8 * ws.length) ∧
      (∀ i (hi : i < ws.length), (Exec.pushWords sp st ws).2 (sp - BitVec.ofNat 64 (8 * (i + 1))) = ws[i]) ∧
      ∀ a, (∀ i < ws.length, a ≠ sp - BitVec.ofNat 64 (8 * (i + 1))) → (Exec.pushWords sp st ws).2 a = st a := by
  induction ws generalizing sp st with
  | nil =>
    refine ⟨?_, fun i hi => absurd hi (Nat.not_lt_zero i), fun a _ => rfl⟩
    rw [Exec.pushWords, length_nil, Nat.mul_zero]
    exact (BitVec.sub_zero sp).symm
  | cons w ws ih =>
    rw [length_cons] at h
    have hstep : ∀ i, sp - 8 - BitVec.ofNat 64 (8 * i) = sp - BitVec.ofNat 64 (8 * (i + 1)) := fun i => by
      rw [sub_sub, Nat.mul_add, BitVec.ofNat_add, add_comm]
      rfl
    obtain ⟨h1, h2, h3⟩ := @ih (sp - 8) (update st (sp - 8) w) (by omega)
    rw [Exec.pushWords]
    refine ⟨by rw [h1, hstep, length_cons], fun i hi => ?_, fun a ha => ?_⟩
    · cases i with
      | zero =>
        have hfirst : sp - BitVec.ofNat 64 (8 * (0 + 1)) = sp - 8 := rfl
        rw [hfirst, h3 (sp - 8) fun i hi hc => ?_, update_self]
        · rfl
        · have hzero : BitVec.ofNat 64 (8 * (i + 1)) = 0 := sub_eq_self.1 hc.symm
          have := congrArg BitVec.toNat hzero
          rw [BitVec.toNat_ofNat, show (0 : U64).toNat = 0 from rfl] at this
          omega
      | succ i =>
        rw [length_cons] at hi
        rw [← hstep, h2 i (by omega), getElem_cons_succ]
    · have hne : a ≠ sp - 8 := ha 0 (Nat.succ_pos _)
      rw [h3 a fun i hi => ?_, update_of_ne hne]
      rw [hstep]
      exact ha (i + 1) (by rw [length_cons]; omega)

/-- **`do_execve`** leaves the frame of `user_launch_trampoline` at the top of the stack. -/
theorem launch_words (trampoline entry rsp : U64) (t : ExecTask) (ht : t.kstackSize = kstackSize) :
    (Exec.launch trampoline entry rsp t).rsp = stackTop t.kstack - 56 ∧
      ((List.range 7).map fun i => (Exec.launch trampoline entry rsp t).stack
        ((Exec.launch trampoline entry rsp t).rsp + BitVec.ofNat 64 (8 * i))) =
        (Exec.launchFrame trampoline entry rsp).reverse := by
  have hlaunch : Exec.launch trampoline entry rsp t =
      { t with
        rsp := (Exec.pushWords (stackTop t.kstack) t.stack (Exec.launchFrame trampoline entry rsp)).1
        stack := (Exec.pushWords (stackTop t.kstack) t.stack (Exec.launchFrame trampoline entry rsp)).2 } := by
    rw [stackTop, ← ht]
    rfl
  have hlen : (Exec.launchFrame trampoline entry rsp).length = 7 := rfl
  obtain ⟨h1, h2, -⟩ :=
    @execPush_spec (Exec.launchFrame trampoline entry rsp) (stackTop t.kstack) t.stack (by rw [hlen]; decide)
  rw [hlen] at h1
  rw [hlaunch]
  dsimp only
  refine ⟨h1, ?_⟩
  rw [h1]
  refine ext_getElem rfl fun i hi hi' => ?_
  rw [length_map, length_range] at hi
  rw [getElem_map, getElem_range, getElem_reverse]
  have haddr : stackTop t.kstack - BitVec.ofNat 64 (8 * 7) + BitVec.ofNat 64 (8 * i) =
      stackTop t.kstack - BitVec.ofNat 64 (8 * (6 - i + 1)) := by
    rw [sub_add, show 8 * 7 = 8 * (6 - i + 1) + 8 * i by omega, BitVec.ofNat_add, add_sub_cancel_right]
  rw [haddr]
  exact h2 (6 - i) (by omega)

/-- **Hand-built kernel stacks agree with the assembly that reads them.** The processor calls `switch_to` for a task
whose stack was built on a memory `m`, by `do_fork`, by `task_create`, by `user_task_create` or by `do_execve`, and is
as it was left. It comes to `iretq` with the registers of the parent but for `rax = 0`, to the function of the task with
its argument, or to `iretq` with the entry point and the stack of the program; all it reads on the way is in the kernel
stack of the task. -/
theorem kernel_stacks_agree (code : Code) (sym : Symbols) (T : Text code sym) (kstack : U64)
    (hk : kstack.toNat + 16384 < 2 ^ 64)
    (m m' : ℕ → BitVec 8) (c : Cpu) (sp ret : U64) (seg : Seg → BitVec 16) (interrupts : Bool) :
    (∀ (fr : Iframe) (fra : U64), Frame m fra.toNat fr.words → forkStack sym.forkChildStub kstack fra m = (sp, m') →
    Calls c sp 232 →
      (∀ x, sp.toNat ≤ x → x < sp.toNat + 232 → c.mem x = m' x) →
      ∃ t, Reaches code (calling sym c ret seg interrupts) t ∧ AtIretq code t fr.rip fr.cs fr.rflags fr.rsp fr.ss ∧
        (∀ r, r ≠ .rsp → t.cpu.regs r = if r = .rax then 0 else fr.reg r) ∧ ReadsIn kstack t 40) ∧
    (∀ fn arg : U64, taskStack sym.taskEntryTrampoline fn arg kstack m = (sp, m') → Calls c sp 56 →
      (∀ x, sp.toNat ≤ x → x < sp.toNat + 56 → c.mem x = m' x) →
      ∃ t, Reaches code (calling sym c ret seg interrupts) t ∧ t.cpu.rip = fn ∧ t.cpu.regs .rdi = arg ∧
        Laid code t.cpu.top [.call sym.taskExit, .hlt] ∧ ReadsIn kstack t 8) ∧
    (∀ entry rsp : U64, launchStack sym.userLaunchTrampoline entry rsp kstack m = (sp, m') → Calls c sp 56 →
      (∀ x, sp.toNat ≤ x → x < sp.toNat + 56 → c.mem x = m' x) →
      ∃ t, Reaches code (calling sym c ret seg interrupts) t ∧ AtIretq code t entry 0x1b 0x202 rsp 0x23 ∧
      ReadsIn kstack t 40) ∧
    ∀ (entry rsp : U64) (u u' : ExecTask), u.kstack = kstack → u.kstackSize = kstackSize →
      Exec.launch sym.userLaunchTrampoline entry rsp u = u' → Calls c u'.rsp 56 →
      Frame c.mem u'.rsp.toNat ((List.range 7).map fun i => u'.stack (u'.rsp + BitVec.ofNat 64 (8 * i))) →
      ∃ t, Reaches code (calling sym c ret seg interrupts) t ∧ AtIretq code t entry 0x1b 0x202 rsp 0x23 ∧
      ReadsIn kstack t 40 := by
  refine ⟨?_, ?_, ?_, ?_⟩
  · intro fr fra hfr hbuild hc hmem
    exact fork_reaches T hk hfr (by rw [hbuild]) hc (by rw [hbuild]; exact hmem)
  · intro fn arg hbuild hc hmem
    obtain ⟨hroom, hframe⟩ := @topFrame c sp kstack m [sym.taskEntryTrampoline, 0, 0, fn, arg, 0, 0] hk rfl
      (congrArg Prod.fst hbuild) (by rw [← taskStack, hbuild]; exact hmem)
    exact task_reaches T hk hc hroom hframe
  · intro entry rsp hbuild hc hmem
    obtain ⟨hroom, hframe⟩ := @topFrame c sp kstack m (Exec.launchFrame sym.userLaunchTrampoline entry rsp) hk rfl
      (congrArg Prod.fst hbuild) (by rw [← launchStack, hbuild]; exact hmem)
    exact launch_reaches T hk hc hroom hframe
  · rintro entry rsp u u' rfl hu rfl hc hframe
    obtain ⟨hsp, hwords⟩ := launch_words sym.userLaunchTrampoline entry rsp u hu
    rw [hwords] at hframe
    refine launch_reaches T hk hc ?_ hframe
    have htop := toNat_stackTop hk
    rw [hsp, BitVec.toNat_sub_of_le (BitVec.le_def.2 (by rw [show (56 : U64).toNat = 56 from rfl]; omega)),
      show (56 : U64).toNat = 56 from rfl]
    omega

end Launch

/-! ### Four first runs -/

/-- routines one after the other, with instructions of one byte -/
def image (is : List Insn) : Code := fun a => is[(a - 0x1000).toNat]?.map fun i => (i, 1)

theorem laid_image {image' is rest : List Insn} {n : ℕ} (h : image'.drop n = is ++ rest) (hn : n + is.length < 2 ^ 32) :
    Laid (image image') (0x1000 + BitVec.ofNat 64 n) is := by
  induction is generalizing n with
  | nil => trivial
  | cons i is ih =>
    rw [length_cons] at hn
    have hat : (0x1000 + BitVec.ofNat 64 n - 0x1000 : U64).toNat = n := by
      rw [add_sub_cancel_left, BitVec.toNat_ofNat]
      omega
    have hget : image'[n]? = some i := by
      have := congrArg (·[0]?) h
      simpa using this
    refine ⟨1, ?_, ?_⟩
    · rw [image, hat, hget]
      rfl
    · have hnext : (0x1000 + BitVec.ofNat 64 n + 1 : U64) = 0x1000 + BitVec.ofNat 64 (n + 1) := by
        rw [BitVec.ofNat_add, add_assoc]
        rfl
      rw [hnext]
      refine ih ?_ (by omega)
      rw [← tail_drop, h, cons_append, tail_cons]

def demoSym : Symbols := ⟨0x1000, 0x100F, 0x1013, 0x1018, 0x1024, 0x1035, 0x2000, 0x2001⟩

def demoText : List Insn :=
  switchTo.map Insn.basic ++ (taskEntryTrampoline demoSym ++ (userLaunchTrampoline demoSym ++ (userEnter ++
    (forkChildStub ++ isrCommon demoSym))))

theorem demo_text : Text (image demoText) demoSym where
  switchTo := laid_image (n := 0) rfl (by decide)
  taskEntryTrampoline := laid_image (n := 15) rfl (by decide)
  userLaunchTrampoline := laid_image (n := 19) rfl (by decide)
  userEnter := laid_image (n := 24) rfl (by decide)
  forkChildStub := laid_image (n := 36) rfl (by decide)
  isrCommon := @laid_image demoText (isrCommon demoSym) [] 53 rfl (by decide)

/-- a task on another stack calls `switch_to` for the stack that was built -/
def demoCaller (built : U64 × (ℕ → BitVec 8)) : Cpu :=
  ⟨fun r => if r = .rsp then 0x200 else if r = .rdi then 0x300 else built.1, 0, built.2⟩

theorem demoCaller_calls {built : U64 × (ℕ → BitVec 8)} {n : ℕ} (h : 0x1000 ≤ built.1.toNat) :
    Calls (demoCaller built) built.1 n := by
  have hsp : (demoCaller built).sp = 0x200 := rfl
  have hrdi : ((demoCaller built).regs .rdi).toNat = 0x300 := rfl
  constructor
  case next => rfl
  all_goals
    simp only [Apart, hsp, hrdi, switchBytes]
    omega

/-- a trap frame with a value of its own in each field -/
def trapFrame : Iframe :=
  ⟨1, 2, 3, 4, 5, 6, 7, 8, 9, 10, 11, 12, 13, 14, 15, 16, 17, 0x400018, 0x1b, 0x202, 0x7FFFE0, 0x23⟩

/-- it lies at 0x8000 -/
def parentMem : ℕ → BitVec 8 := (pushWords 0x80B0 (fun _ => 0) trapFrame.words.reverse).2

theorem trapFrame_laid : Frame parentMem (0x8000 : U64).toNat trapFrame.words := by
  obtain ⟨hsp, hframe, -⟩ := @pushWords_frame (fun _ => 0) 0x80B0 trapFrame.words.reverse (by decide)
  rw [length_reverse, show trapFrame.words.length = 22 from rfl, show (0x80B0 : U64).toNat = 0x80B0 from rfl] at hsp
  rw [reverse_reverse, show (pushWords 0x80B0 (fun _ => 0) trapFrame.words.reverse).1.toNat = 0x8000 by omega] at hframe
  exact hframe

def forked : U64 × (ℕ → BitVec 8) := forkStack demoSym.forkChildStub 0x10000 0x8000 parentMem

def created : U64 × (ℕ → BitVec 8) := taskStack demoSym.taskEntryTrampoline 7 8 0x10000 fun _ => 0

def launched (entry rsp : U64) : U64 × (ℕ → BitVec 8) :=
  launchStack demoSym.userLaunchTrampoline entry rsp 0x10000 fun _ => 0

/-- the same, by `do_execve` -/
def execTask (entry rsp : U64) : ExecTask :=
  Exec.launch demoSym.userLaunchTrampoline entry rsp ⟨0, 0, 0x10000, kstackSize, fun _ => 0⟩

/-- a child, a kernel task, a program and a program after `execve` on a stack at 0x10000 -/
theorem first_runs : (∃ t, Reaches (image demoText) (calling demoSym (demoCaller forked) 0 (fun _ => 0) true) t ∧
      AtIretq (image demoText) t 0x400018 0x1b 0x202 0x7FFFE0 0x23 ∧
      (∀ r, r ≠ .rsp → t.cpu.regs r = if r = .rax then 0 else trapFrame.reg r) ∧ ReadsIn 0x10000 t 40) ∧
    (∃ t, Reaches (image demoText) (calling demoSym (demoCaller created) 0 (fun _ => 0) true) t ∧ t.cpu.rip = 7 ∧
      t.cpu.regs .rdi = 8 ∧ Laid (image demoText) t.cpu.top [.call demoSym.taskExit, .hlt] ∧ ReadsIn 0x10000 t 8) ∧
    (∃ t, Reaches (image demoText)
        (calling demoSym (demoCaller (launched userCodeBase (userStackTop - 16))) 0 (fun _ => 0) true) t ∧
      AtIretq (image demoText) t userCodeBase 0x1b 0x202 (userStackTop - 16) 0x23 ∧ ReadsIn 0x10000 t 40) ∧
    (execTask 0x401000 0x7FFF00).rsp = (launched 0x401000 0x7FFF00).1 ∧
    ∃ t, Reaches (image demoText) (calling demoSym (demoCaller (launched 0x401000 0x7FFF00)) 0 (fun _ => 0) true) t ∧
      AtIretq (image demoText) t 0x401000 0x1b 0x202 0x7FFF00 0x23 ∧ ReadsIn 0x10000 t 40 := by
  have hk : (0x10000 : U64).toNat + 16384 < 2 ^ 64 := by decide
  have htop : (stackTop 0x10000).toNat = 0x14000 := by decide
  have hpush : ∀ ws : List U64, ws.length = 7 → (pushWords (stackTop 0x10000) (fun _ => 0) ws).1.toNat = 0x13FC8 ∧
      Frame (pushWords (stackTop 0x10000) (fun _ => 0) ws).2
        (pushWords (stackTop 0x10000) (fun _ => 0) ws).1.toNat ws.reverse :=
    fun ws hws => by
      obtain ⟨hsp, hframe, -⟩ := @pushWords_frame (fun _ => 0) (stackTop 0x10000) ws (by omega)
      exact ⟨by omega, hframe⟩
  have hfork : 0x1000 ≤ forked.1.toNat := by
    have := (@forkStack_frame parentMem 0x10000 demoSym.forkChildStub 0x8000 trapFrame hk trapFrame_laid).1
    rw [forked]
    omega
  have hcreate : created.1.toNat = 0x13FC8 := (hpush _ rfl).1
  have hlaunch : ∀ entry rsp, (launched entry rsp).1.toNat = 0x13FC8 := fun entry rsp => (hpush _ rfl).1
  obtain ⟨hsp, hwords⟩ := launch_words demoSym.userLaunchTrampoline 0x401000 0x7FFF00
    ⟨0, 0, 0x10000, kstackSize, fun _ => 0⟩ rfl
  have hrsp : (execTask 0x401000 0x7FFF00).rsp = (launched 0x401000 0x7FFF00).1 := by
    refine BitVec.eq_of_toNat_eq ?_
    rw [hlaunch, execTask, hsp]
    decide
  refine ⟨?_, ?_, ?_, hrsp, ?_⟩
  · exact (kernel_stacks_agree _ demoSym demo_text 0x10000 hk parentMem forked.2 (demoCaller forked) forked.1 0
      (fun _ => 0) true).1 trapFrame 0x8000 trapFrame_laid rfl (demoCaller_calls hfork) fun _ _ _ => rfl
  · exact (kernel_stacks_agree _ demoSym demo_text 0x10000 hk (fun _ => 0) created.2 (demoCaller created) created.1 0
      (fun _ => 0) true).2.1 7 8 rfl (demoCaller_calls (by rw [hcreate]; decide)) fun _ _ _ => rfl
  · exact (kernel_stacks_agree _ demoSym demo_text 0x10000 hk (fun _ => 0) (launched userCodeBase (userStackTop - 16)).2
      (demoCaller (launched userCodeBase (userStackTop - 16))) (launched userCodeBase (userStackTop - 16)).1 0
      (fun _ => 0)
      true).2.2.1 userCodeBase (userStackTop - 16) rfl (demoCaller_calls (by rw [hlaunch]; decide)) fun _ _ _ => rfl
  · refine (kernel_stacks_agree _ demoSym demo_text 0x10000 hk (fun _ => 0) (fun _ => 0)
      (demoCaller (launched 0x401000 0x7FFF00)) 0 0 (fun _ => 0) true).2.2.2 0x401000 0x7FFF00
      ⟨0, 0, 0x10000, kstackSize, fun _ => 0⟩ (execTask 0x401000 0x7FFF00) rfl rfl rfl ?_ ?_
    · rw [hrsp]
      exact demoCaller_calls (by rw [hlaunch]; decide)
    · rw [execTask, hwords, ← execTask, hrsp]
      exact (hpush _ rfl).2

end Uix.Switch
