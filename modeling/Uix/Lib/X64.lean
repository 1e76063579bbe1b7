/-
A fragment of x86-64: the general registers, a byte memory, and instructions that move words between the two. Addresses
are numbers; a word that would wrap around at 2^64 is never reached here.

- `Frame`: consecutive words of memory.
- `pushWords_spec`: words pushed one after the other form a frame, last one first; nothing else changes.
- `run_push`: pushing registers pushes what they hold.
- `run_pop`: popping a frame loads it into the registers, first word first.
-/
import Uix.Lib.Bytes

namespace Uix.X64

open Bytes List Function

/-- the general registers -/
inductive Reg where
  | rax | rcx | rdx | rbx | rsp | rbp | rsi | rdi | r8 | r9 | r10 | r11 | r12 | r13 | r14 | r15
  deriving DecidableEq, Repr

structure Cpu where
  regs : Reg → BitVec 64
  rip : BitVec 64
  mem : ℕ → BitVec 8

inductive Instr where
  | push (r : Reg)
  | pop (r : Reg)
  | mov (src dst : Reg)
  | movTo (src base : Reg)
  | ret
  deriving DecidableEq, Repr

namespace Cpu

def set (c : Cpu) (r : Reg) (v : BitVec 64) : Cpu := { c with regs := Function.update c.regs r v }

/-- the stack pointer, as an address -/
def sp (c : Cpu) : ℕ := (c.regs .rsp).toNat

/-- the word on top of the stack -/
def top (c : Cpu) : BitVec 64 := BitVec.ofNat 64 (load c.mem c.sp 8)

def pushWord (c : Cpu) (v : BitVec 64) : Cpu :=
  let sp := c.regs .rsp - 8
  { c.set .rsp sp with mem := store c.mem sp.toNat 8 v.toNat }

/-- one instruction; where it lies plays no part but for jumps -/
def exec (c : Cpu) : Instr → Cpu
  | .push r => c.pushWord (c.regs r)
  | .pop r => (c.set .rsp (c.regs .rsp + 8)).set r c.top
  | .mov src dst => c.set dst (c.regs src)
  | .movTo src base => { c with mem := store c.mem (c.regs base).toNat 8 (c.regs src).toNat }
  | .ret => { c.set .rsp (c.regs .rsp + 8) with rip := c.top }

def run (c : Cpu) (is : List Instr) : Cpu := is.foldl exec c

@[simp] theorem run_nil (c : Cpu) : c.run [] = c := rfl

@[simp] theorem run_cons (c : Cpu) (i : Instr) (is : List Instr) : c.run (i :: is) = (c.exec i).run is := rfl

theorem run_append (c : Cpu) (is js : List Instr) : c.run (is ++ js) = (c.run is).run js := foldl_append

theorem set_self (c : Cpu) (r : Reg) (v : BitVec 64) : (c.set r v).regs r = v := update_self ..

theorem set_of_ne (c : Cpu) {r r' : Reg} (h : r' ≠ r) (v : BitVec 64) : (c.set r v).regs r' = c.regs r' :=
  update_of_ne h ..

theorem exec_movTo (c : Cpu) (src base : Reg) :
    (c.exec (.movTo src base)).mem = store c.mem (c.regs base).toNat 8 (c.regs src).toNat ∧
      (c.exec (.movTo src base)).regs = c.regs := ⟨rfl, rfl⟩

theorem exec_mov (c : Cpu) (src dst : Reg) :
    (c.exec (.mov src dst)).regs dst = c.regs src ∧ (c.exec (.mov src dst)).mem = c.mem := ⟨c.set_self dst _, rfl⟩

theorem exec_ret (c : Cpu) : (c.exec .ret).regs .rsp = c.regs .rsp + 8 ∧ (c.exec .ret).mem = c.mem ∧
    (c.exec .ret).rip = c.top ∧ ∀ r, r ≠ .rsp → (c.exec .ret).regs r = c.regs r := by
  have hregs : (c.exec .ret).regs = update c.regs .rsp (c.regs .rsp + 8) := rfl
  rw [hregs]
  exact ⟨update_self .., rfl, rfl, fun r h => update_of_ne h ..⟩

end Cpu

/-! ## Frames -/

/-- the words `vs` stand in memory from `a` on -/
def Frame (m : ℕ → BitVec 8) : ℕ → List (BitVec 64) → Prop
  | _, [] => True
  | a, v :: vs => load m a 8 = v.toNat ∧ Frame m (a + 8) vs

section Frame

variable {m m' : ℕ → BitVec 8} {a : ℕ} {vs ws : List (BitVec 64)} {v : BitVec 64}

theorem frame_append : Frame m a (vs ++ ws) ↔ Frame m a vs ∧ Frame m (a + 8 * vs.length) ws := by
  induction vs generalizing a with
  | nil => simp [Frame]
  | cons v vs ih =>
    rw [cons_append, Frame, Frame, ih, and_assoc, length_cons]
    exact and_congr_right fun _ => and_congr_right fun _ => by
      rw [show a + 8 + 8 * vs.length = a + 8 * (vs.length + 1) by ring]

theorem Frame.congr (h : Frame m a vs) (hm : ∀ x, a ≤ x → x < a + 8 * vs.length → m' x = m x) : Frame m' a vs := by
  induction vs generalizing a with
  | nil => trivial
  | cons v vs ih =>
    rw [length_cons] at hm
    refine ⟨?_, ih h.2 fun x h1 h2 => hm x (by omega) (by omega)⟩
    rw [load_congr fun x h1 h2 => hm x h1 (by omega)]
    exact h.1

end Frame

/-! ## Pushing and popping -/

namespace Cpu

variable {c c' : Cpu} {v : BitVec 64} {vs : List (BitVec 64)} {rs : List Reg}

def pushWords (c : Cpu) (vs : List (BitVec 64)) : Cpu := vs.foldl pushWord c

theorem pushWords_cons (c : Cpu) (v : BitVec 64) (vs : List (BitVec 64)) :
    c.pushWords (v :: vs) = (c.pushWord v).pushWords vs := rfl

/-- `c'` is `c` with the words `vs` pushed -/
structure Pushed (c c' : Cpu) (vs : List (BitVec 64)) : Prop where
  sp : c'.sp + 8 * vs.length = c.sp
  regs : ∀ r, r ≠ .rsp → c'.regs r = c.regs r
  rip : c'.rip = c.rip
  outside : ∀ a, a < c'.sp ∨ c.sp ≤ a → c'.mem a = c.mem a
  frame : Frame c'.mem c'.sp vs.reverse

theorem pushWord_sp (h : 8 ≤ c.sp) : (c.pushWord v).sp + 8 = c.sp := by
  have hsub : (c.regs .rsp - 8).toNat = (c.regs .rsp).toNat - 8 := BitVec.toNat_sub_of_le (BitVec.le_def.2 h)
  have : (c.pushWord v).sp = (c.regs .rsp - 8).toNat := congrArg BitVec.toNat (c.set_self .rsp _)
  rw [this, hsub]
  exact Nat.sub_add_cancel h

theorem pushWord_mem (h : 8 ≤ c.sp) : (c.pushWord v).mem = store c.mem (c.sp - 8) 8 v.toNat := by
  have hsub : (c.regs .rsp - 8).toNat = (c.regs .rsp).toNat - 8 := BitVec.toNat_sub_of_le (BitVec.le_def.2 h)
  rw [pushWord, hsub]
  rfl

theorem pushWord_regs {r : Reg} (h : r ≠ .rsp) : (c.pushWord v).regs r = c.regs r := c.set_of_ne h _

/-- **Words pushed** one after the other. -/
theorem pushWords_spec (h : 8 * vs.length ≤ c.sp) : Pushed c (c.pushWords vs) vs := by
  induction vs generalizing c with
  | nil => exact ⟨rfl, fun _ _ => rfl, rfl, fun _ _ => rfl, trivial⟩
  | cons v vs ih =>
    rw [length_cons] at h
    have h8 : 8 ≤ c.sp := by omega
    have hsp := @pushWord_sp c v h8
    have hmem := @pushWord_mem c v h8
    have P := @ih (c.pushWord v) (by omega)
    have hP := P.sp
    rw [pushWords_cons]
    constructor
    case sp =>
      rw [length_cons]
      omega
    case regs =>
      intro r hr
      rw [P.regs r hr, pushWord_regs hr]
    case rip => exact P.rip
    case outside =>
      intro a ha
      rw [P.outside a (by omega), hmem, store_of_lt (by omega)]
    case frame =>
      rw [reverse_cons, frame_append, length_reverse]
      refine ⟨P.frame, ?_, trivial⟩
      -- the words pushed later lie below this one
      rw [hP, load_congr fun x h1 h2 => P.outside x (by omega), hmem, show (c.pushWord v).sp = c.sp - 8 by omega,
        load_store_eq v.isLt]

/-- pushing registers pushes what they hold -/
theorem run_push (hrs : .rsp ∉ rs) : c.run (rs.map .push) = c.pushWords (rs.map c.regs) := by
  induction rs generalizing c with
  | nil => rfl
  | cons r rs ih =>
    rw [mem_cons, not_or] at hrs
    rw [map_cons, map_cons, run_cons, ih hrs.2]
    change (c.pushWord (c.regs r)).pushWords _ = (c.pushWord (c.regs r)).pushWords _
    refine congrArg _ (map_congr_left fun r' hr' => ?_)
    refine pushWord_regs ?_
    rintro rfl
    exact hrs.2 hr'

/-- `c'` is `c` with the words `vs` popped into the registers `rs` -/
structure Popped (c c' : Cpu) (rs : List Reg) (vs : List (BitVec 64)) : Prop where
  sp : c'.sp = c.sp + 8 * rs.length
  mem : c'.mem = c.mem
  regs : ∀ p ∈ rs.zip vs, c'.regs p.1 = p.2
  kept : ∀ r, r ≠ .rsp → r ∉ rs → c'.regs r = c.regs r

/-- popping reads only -/
theorem run_pop_mem (rs : List Reg) : (c.run (rs.map .pop)).mem = c.mem := by
  induction rs generalizing c with
  | nil => rfl
  | cons r rs ih => exact ih

theorem add_eight_sp (h : c.sp + 8 < 2 ^ 64) : (c.regs .rsp + 8).toNat = c.sp + 8 := by
  rw [BitVec.toNat_add, show (8 : BitVec 64).toNat = 8 from rfl]
  exact Nat.mod_eq_of_lt h

theorem top_of_frame (h : Frame c.mem c.sp (v :: vs)) : c.top = v := by
  rw [top, h.1, BitVec.ofNat_toNat, BitVec.setWidth_eq]

/-- **A frame popped** into registers. -/
theorem run_pop (hrs : .rsp ∉ rs) (hnodup : rs.Nodup) (hlen : rs.length = vs.length)
    (hwrap : c.sp + 8 * rs.length < 2 ^ 64) (hframe : Frame c.mem c.sp vs) : Popped c (c.run (rs.map .pop)) rs vs := by
  induction rs generalizing c vs with
  | nil => exact ⟨rfl, rfl, fun p hp => absurd hp not_mem_nil, fun _ _ _ => rfl⟩
  | cons r rs ih =>
    rw [mem_cons, not_or] at hrs
    obtain ⟨hr, hnodup⟩ := nodup_cons.1 hnodup
    obtain ⟨v, vs, rfl⟩ := exists_cons_of_length_eq_add_one hlen.symm
    rw [length_cons] at hwrap
    have hsp : (c.exec (.pop r)).sp = c.sp + 8 := by
      refine Eq.trans ?_ (@add_eight_sp c (by omega))
      change (((c.set .rsp (c.regs .rsp + 8)).set r c.top).regs .rsp).toNat = _
      rw [set_of_ne _ hrs.1, set_self]
    have P := @ih (c.exec (.pop r)) vs hrs.2 hnodup (by simpa using hlen) (by rw [hsp]; omega) (by
      rw [hsp]
      exact hframe.2)
    constructor
    case sp =>
      rw [map_cons, run_cons, P.sp, hsp, length_cons]
      ring
    case mem => exact P.mem
    case regs =>
      rw [zip_cons_cons]
      refine forall_mem_cons.2 ⟨?_, P.regs⟩
      rw [map_cons, run_cons, P.kept r (fun hc => hrs.1 hc.symm) hr]
      exact ((c.set _ _).set_self r _).trans (top_of_frame hframe)
    case kept =>
      intro r' hsp' hr'
      rw [mem_cons, not_or] at hr'
      rw [map_cons, run_cons, P.kept r' hsp' hr'.2]
      exact ((c.set _ _).set_of_ne hr'.1 _).trans (c.set_of_ne hsp' _)

end Cpu

end Uix.X64
