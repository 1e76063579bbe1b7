/-
Routines of x86-64 code at their addresses: an instruction lies at an address and has a length, calls and returns go
where they say. The addresses of the words that the processor reads are kept.

- `Laid`: a routine lies in memory from an address on.
- `reaches_straight`: instructions that do not jump are executed one after the other.
- `foldl_effect_pop`: a frame is popped into registers, and nothing else is read.
-/
import Uix.Lib.X64

namespace Uix.X64

open Bytes List

inductive Seg where
  | ds | es | fs | gs
  deriving DecidableEq, Repr

inductive Insn where
  | basic (i : Instr)
  | pushImm (v : BitVec 64)
  | add (n : BitVec 64) (r : Reg)
  | movAx (v : BitVec 16)
  | movSeg (g : Seg)
  | cli
  | call (target : BitVec 64)
  | callReg (r : Reg)
  | hlt
  | iretq
  deriving DecidableEq, Repr

/-- a `push` for each register -/
def pushes (rs : List Reg) : List Insn := rs.map fun r => .basic (.push r)

def pops (rs : List Reg) : List Insn := rs.map fun r => .basic (.pop r)

/-- the addresses that an instruction reads a word from -/
def Instr.reads (c : Cpu) : Instr → List ℕ
  | .pop _ => [c.sp]
  | .ret => [c.sp]
  | _ => []

/-- the processor with its segment registers and its interrupt flag -/
structure Mach where
  cpu : Cpu
  seg : Seg → BitVec 16
  interrupts : Bool
  /-- the addresses of the words read so far -/
  reads : List ℕ

/-- the instruction at an address, and its length -/
abbrev Code := BitVec 64 → Option (Insn × BitVec 64)

namespace Mach

def jump (s : Mach) (a : BitVec 64) : Mach := { s with cpu := { s.cpu with rip := a } }

/-- an instruction, apart from where the next one is -/
def effect (s : Mach) : Insn → Mach
  | .basic i => { s with cpu := s.cpu.exec i, reads := i.reads s.cpu ++ s.reads }
  | .pushImm v => { s with cpu := s.cpu.pushWord v }
  | .add n r => { s with cpu := s.cpu.set r (s.cpu.regs r + n) }
  | .movAx v => { s with cpu := s.cpu.set .rax ((s.cpu.regs .rax &&& ~~~ 0xFFFF#64) ||| v.setWidth 64) }
  | .movSeg g => { s with seg := Function.update s.seg g ((s.cpu.regs .rax).setWidth 16) }
  | .cli => { s with interrupts := false }
  | _ => s

@[simp] theorem effect_push (s : Mach) (r : Reg) :
    s.effect (.basic (.push r)) = { s with cpu := s.cpu.pushWord (s.cpu.regs r) } := rfl

@[simp] theorem effect_pushImm (s : Mach) (v : BitVec 64) :
    s.effect (.pushImm v) = { s with cpu := s.cpu.pushWord v } := rfl

@[simp] theorem effect_mov (s : Mach) (src dst : Reg) :
    s.effect (.basic (.mov src dst)) = { s with cpu := s.cpu.set dst (s.cpu.regs src) } := rfl

@[simp] theorem effect_movSeg (s : Mach) (g : Seg) :
    s.effect (.movSeg g) = { s with seg := Function.update s.seg g ((s.cpu.regs .rax).setWidth 16) } := rfl

@[simp] theorem effect_movAx (s : Mach) (v : BitVec 16) : s.effect (.movAx v) =
    { s with cpu := s.cpu.set .rax ((s.cpu.regs .rax &&& ~~~ 0xFFFF#64) ||| v.setWidth 64) } := rfl

@[simp] theorem effect_cli (s : Mach) : s.effect .cli = { s with interrupts := false } := rfl

/-- one instruction; `hlt` and `iretq` are the ends of a routine -/
def step (code : Code) (s : Mach) : Option Mach :=
  match code s.cpu.rip with
  | none => none
  | some (.basic .ret, _) => some (s.effect (.basic .ret))
  | some (.call target, len) => some ((s.effect (.pushImm (s.cpu.rip + len))).jump target)
  | some (.callReg r, len) => some ((s.effect (.pushImm (s.cpu.rip + len))).jump (s.cpu.regs r))
  | some (.hlt, _) => none
  | some (.iretq, _) => none
  | some (i, len) => some ((s.effect i).jump (s.cpu.rip + len))

end Mach

/-- `t` comes after `s` -/
def Reaches (code : Code) : Mach → Mach → Prop := Relation.ReflTransGen fun s t => s.step code = some t

/-- the routine lies in memory from an address on -/
def Laid (code : Code) : BitVec 64 → List Insn → Prop
  | _, [] => True
  | a, i :: is => ∃ len, code a = some (i, len) ∧ Laid code (a + len) is

/-- execution goes on with the instruction after this one -/
def Insn.straight : Insn → Bool
  | .basic .ret | .call _ | .callReg _ | .hlt | .iretq => false
  | _ => true

section Straight

variable {code : Code} {s t u : Mach} {i : Insn} {is rest : List Insn} {a target : BitVec 64} {r : Reg}

theorem Mach.jump_jump (s : Mach) (a b : BitVec 64) : (s.jump a).jump b = s.jump b := rfl

theorem Mach.effect_jump (hi : i.straight = true) (s : Mach) (a : BitVec 64) :
    (s.jump a).effect i = (s.effect i).jump a := by
  cases i with
  | basic i => cases i <;> first | exact absurd hi Bool.false_ne_true | rfl
  | call target => exact absurd hi Bool.false_ne_true
  | callReg r => exact absurd hi Bool.false_ne_true
  | hlt => exact absurd hi Bool.false_ne_true
  | iretq => exact absurd hi Bool.false_ne_true
  | _ => rfl

theorem foldl_effect_jump (his : ∀ i ∈ is, i.straight = true) (s : Mach) (a : BitVec 64) :
    is.foldl Mach.effect (s.jump a) = (is.foldl Mach.effect s).jump a := by
  induction is generalizing s with
  | nil => rfl
  | cons i is ih =>
    rw [foldl_cons, foldl_cons, Mach.effect_jump (his i mem_cons_self), ih fun j hj => his j (mem_cons_of_mem i hj)]

theorem Mach.step_straight {len : BitVec 64} (hi : i.straight = true) (h : code s.cpu.rip = some (i, len)) :
    s.step code = some ((s.effect i).jump (s.cpu.rip + len)) := by
  unfold Mach.step
  rw [h]
  cases i with
  | basic i => cases i <;> first | exact absurd hi Bool.false_ne_true | rfl
  | call target => exact absurd hi Bool.false_ne_true
  | callReg r => exact absurd hi Bool.false_ne_true
  | hlt => exact absurd hi Bool.false_ne_true
  | iretq => exact absurd hi Bool.false_ne_true
  | _ => rfl

/-- **Instructions without a jump** are executed one after the other. -/
theorem reaches_straight (his : ∀ i ∈ is, i.straight = true) (h : Laid code s.cpu.rip (is ++ rest)) :
    ∃ a, Laid code a rest ∧ Reaches code s ((is.foldl Mach.effect s).jump a) := by
  induction is generalizing s with
  | nil => exact ⟨s.cpu.rip, h, .refl⟩
  | cons i is ih =>
    obtain ⟨len, hcode, h⟩ := h
    have hi := his i mem_cons_self
    have hrest : ∀ j ∈ is, j.straight = true := fun j hj => his j (mem_cons_of_mem i hj)
    obtain ⟨a, hlaid, hrun⟩ := @ih ((s.effect i).jump (s.cpu.rip + len)) hrest h
    rw [foldl_effect_jump hrest, Mach.jump_jump] at hrun
    exact ⟨a, hlaid, .head (Mach.step_straight hi hcode) hrun⟩

theorem reaches_ret (h : Laid code s.cpu.rip (.basic .ret :: rest)) : Reaches code s (s.effect (.basic .ret)) := by
  obtain ⟨len, hcode, -⟩ := h
  refine .single ?_
  rw [Mach.step, hcode]

theorem reaches_call (h : Laid code s.cpu.rip (.call target :: rest)) :
    ∃ ret, Laid code ret rest ∧ Reaches code s ((s.effect (.pushImm ret)).jump target) := by
  obtain ⟨len, hcode, h⟩ := h
  refine ⟨_, h, .single ?_⟩
  rw [Mach.step, hcode]

theorem reaches_callReg (h : Laid code s.cpu.rip (.callReg r :: rest)) :
    ∃ ret, Laid code ret rest ∧ Reaches code s ((s.effect (.pushImm ret)).jump (s.cpu.regs r)) := by
  obtain ⟨len, hcode, h⟩ := h
  refine ⟨_, h, .single ?_⟩
  rw [Mach.step, hcode]

end Straight

/-! ## Frames -/

section Frames

variable {s : Mach} {rs : List Reg} {vs : List (BitVec 64)}

/-- pushed registers are what they are to `Cpu.run` -/
theorem foldl_effect_push (s : Mach) (rs : List Reg) :
    (pushes rs).foldl Mach.effect s = { s with cpu := s.cpu.run (rs.map .push) } := by
  induction rs generalizing s with
  | nil => rfl
  | cons r rs ih => exact ih _

/-- **A frame popped**, with what is read for it -/
theorem foldl_effect_pop (hrs : .rsp ∉ rs) (hwrap : s.cpu.sp + 8 * rs.length < 2 ^ 64) :
    ∃ reads, (pops rs).foldl Mach.effect s = { s with cpu := s.cpu.run (rs.map .pop), reads := reads } ∧
      ∀ x ∈ reads, x ∈ s.reads ∨ s.cpu.sp ≤ x ∧ x + 8 ≤ s.cpu.sp + 8 * rs.length := by
  induction rs generalizing s with
  | nil => exact ⟨s.reads, rfl, fun x hx => .inl hx⟩
  | cons r rs ih =>
    rw [mem_cons, not_or] at hrs
    rw [length_cons] at hwrap ⊢
    have hsp : (s.effect (.basic (.pop r))).cpu.sp = s.cpu.sp + 8 := by
      refine Eq.trans ?_ (@Cpu.add_eight_sp s.cpu (by omega))
      change (((s.cpu.set .rsp (s.cpu.regs .rsp + 8)).set r s.cpu.top).regs .rsp).toNat = _
      rw [Cpu.set_of_ne _ hrs.1, Cpu.set_self]
    obtain ⟨reads, hrun, hreads⟩ := @ih (s.effect (.basic (.pop r))) hrs.2 (by rw [hsp]; omega)
    refine ⟨reads, hrun, fun x hx => ?_⟩
    rcases hreads x hx with hx | hx
    · rcases mem_cons.1 hx with rfl | hx
      · exact .inr ⟨Nat.le_refl _, by omega⟩
      · exact .inl hx
    · rw [hsp] at hx
      exact .inr (by omega)

end Frames

end Uix.X64
