/-
File descriptors: the table of a task (`src/core/cpu/task.c`), the system calls that go by it
(`src/core/cpu/syscall.c`), its copy in `do_fork` and its first contents in `user_task_create`.

Beside the kernel stands a reference, in which a process has a map from descriptors to what is open there. A descriptor
from `open("/dev/console")` is open for reading and writing there. The kernel stores `FD_CONSOLE_IN` for it, which
`SYS_write` does not take.

- `Holds.sysOpen`, `Holds.sysClose`, `Holds.sysRead`, `Holds.sysWrite`: what a call does, in terms of the map.
- `step_agrees`: kernel and reference answer alike, unless a descriptor from `open` is written to.
- `fd_calls_agree`: so they do in a whole run.
- `opened_not_writable`: `open`, then `write`.
-/
import Uix.Cpu.Sched
import Uix.Io.Tty

namespace Uix

open List Function

/-! ## The table -/

/-- `fds` of a task -/
abbrev Fds := Fin procMaxFds → ProcFd

namespace Fds

/-- the table that `user_task_create` sets up in a cleared structure -/
def stdio : Fds := fun i =>
  if i.1 = 0 then ⟨.consoleIn, true⟩ else if i.1 = 1 ∨ i.1 = 2 then ⟨.consoleOut, true⟩ else ⟨.none, false⟩

/-- the index `fd`, if it is one -/
def slot (fd : ℤ) : Option (Fin procMaxFds) :=
  if h : 0 ≤ fd ∧ fd < procMaxFds then some ⟨fd.toNat, by omega⟩ else none

def procFdAlloc (t : Fds) (type : FdType) : ℤ × Fds :=
  match (List.finRange procMaxFds).find? fun i => !(t i).inUse with
  | some i => (i.1, Function.update t i ⟨type, true⟩)
  | none => (-24, t)

def procFdFree (t : Fds) (fd : ℤ) : Fds :=
  match slot fd with
  | some i => Function.update t i { t i with inUse := false }
  | none => t

def procFdType (t : Fds) (fd : ℤ) : FdType :=
  match slot fd with
  | some i => if (t i).inUse then (t i).type else .none
  | none => .none

/-! ## System calls -/

/-- `(int)fr->rdi` -/
def intArg (rdi : U64) : ℤ := (rdi.setWidth 32).toInt

/-- `"/dev/console"`, with its NUL -/
def cons : List Byte :=
  [0x2F#8, 0x64#8, 0x65#8, 0x76#8, 0x2F#8, 0x63#8, 0x6F#8, 0x6E#8, 0x73#8, 0x6F#8, 0x6C#8, 0x65#8, 0x00#8]

/-- the loop of `SYS_open`: how far the path goes with `cons`; the list is what is left of it -/
def scan (path : ℕ → Byte) : List Byte → ℕ → ℕ
  | [], i => i
  | c :: cs, i => if path i = c then if path i = 0 then i else scan path cs (i + 1) else i

/-- `SYS_open`, where the path is what the process has at the pointer -/
def sysOpen (t : Fds) (path : ℕ → Byte) : U64 × Fds :=
  let i := scan path cons 0
  if path i ≠ 0 ∨ cons.getD i 0xFF#8 ≠ 0 then (BitVec.ofInt 64 (-2), t) else
  let (r, t) := t.procFdAlloc .consoleIn
  (BitVec.ofInt 64 r, t)

/-- `SYS_close` -/
def sysClose (t : Fds) (rdi : U64) : U64 × Fds :=
  if t.procFdType (intArg rdi) = .none then (BitVec.ofInt 64 (-9), t) else (0, t.procFdFree (intArg rdi))

/-- `SYS_read`, when the keyboard has `raw`: the value returned and what was stored at `rsi` -/
def sysRead (t : Fds) (rdi rdx : U64) (raw : List Byte) (tty : Tty) : U64 × List Byte × Tty :=
  if t.procFdType (intArg rdi) ≠ .consoleIn then (BitVec.ofInt 64 (-9), [], tty) else
  if rdx < 1 then (0, [], tty) else
  let (n, buf, tty) := (tty.ttyPoll raw).ttyReadline (rdx.setWidth 32)
  (BitVec.ofNat 64 n, buf, tty)

/-- `SYS_write` of the bytes that the process has at `rsi` -/
def sysWrite (t : Fds) (rdi : U64) (buf : ℕ → Byte) (rdx : U64) (tty : Tty) : U64 × Tty :=
  if t.procFdType (intArg rdi) ≠ .consoleOut then (BitVec.ofInt 64 (-9), tty) else
  (rdx, tty.putc ((List.range rdx.toNat).map buf))

end Fds

/-! ## Processes -/

/-- a system call with its arguments and what the process has at its pointers; a fork may find no memory -/
inductive FdCall where
  | openPath (path : ℕ → Byte)
  | close (rdi : U64)
  | read (rdi rdx : U64) (raw : List Byte)
  | write (rdi : U64) (buf : ℕ → Byte) (rdx : U64)
  | fork (memory : Bool)

/-- `user_task_create`, or a system call of process `p` -/
inductive FdEvent where
  | create
  | call (p : ℕ) (c : FdCall)

/-- what a call shows: the value returned, the bytes stored for the process, the terminal afterwards -/
structure Answer where
  rax : U64
  buf : List Byte
  tty : Tty

/-- processes with a table each; `fds` is what the kernel keeps or what the reference keeps -/
structure FdState (fds : Type) where
  procs : ℕ → Option fds
  nextPid : ℕ
  tty : Tty

namespace FdState

variable {fds : Type}

def answer (s : FdState fds) (rax : U64) (buf : List Byte) : Answer × FdState fds := (⟨rax, buf, s.tty⟩, s)

/-- process `p` has the table `t` -/
def setFds (s : FdState fds) (p : ℕ) (t : fds) : FdState fds := { s with procs := Function.update s.procs p (some t) }

/-- a new process with the table `t` -/
def spawn (s : FdState fds) (t : fds) : FdState fds := { s.setFds s.nextPid t with nextPid := s.nextPid + 1 }

end FdState

/-- a system call of the kernel, by process `p` with table `t` -/
def FdCall.dispatch (s : FdState Fds) (p : ℕ) (t : Fds) : FdCall → Answer × FdState Fds
  | .openPath path =>
    let (r, t) := t.sysOpen path
    (s.setFds p t).answer r []
  | .close rdi =>
    let (r, t) := t.sysClose rdi
    (s.setFds p t).answer r []
  | .read rdi rdx raw =>
    let (r, buf, tty) := t.sysRead rdi rdx raw s.tty
    { s with tty := tty }.answer r buf
  | .write rdi buf rdx =>
    let (r, tty) := t.sysWrite rdi buf rdx s.tty
    { s with tty := tty }.answer r []
  | .fork memory =>
    if memory then (s.spawn t).answer (BitVec.ofNat 64 s.nextPid) [] else s.answer (BitVec.ofInt 64 (-12)) []

/-- one event in the kernel; a process that does not exist calls nothing -/
def kernelStep (s : FdState Fds) : FdEvent → Answer × FdState Fds
  | .create => (s.spawn .stdio).answer 0 []
  | .call p c =>
    match s.procs p with
    | some t => c.dispatch s p t
    | none => s.answer 0 []

/-! ## The reference -/

/-- what is open: the two ends of the terminal that a process starts with, or the console -/
inductive Kind where
  | input
  | output
  | console
  deriving DecidableEq, Repr

def Kind.readable : Kind → Bool
  | .output => false
  | _ => true

def Kind.writable : Kind → Bool
  | .input => false
  | _ => true

/-- the descriptors of a process -/
abbrev FdMap := Fin procMaxFds → Option Kind

namespace FdMap

def stdio : FdMap := fun i => if i.1 = 0 then some .input else if i.1 = 1 ∨ i.1 = 2 then some .output else none

/-- the descriptors that are not in use -/
def unused (m : FdMap) : Finset (Fin procMaxFds) := Finset.univ.filter fun i => m i = none

/-- what is open at `fd` -/
def at? (m : FdMap) (rdi : U64) : Option Kind := (Fds.slot (Fds.intArg rdi)).bind m

/-- the path is `"/dev/console"` -/
def IsConsole (path : ℕ → Byte) : Prop := ∀ i < Fds.cons.length, path i = Fds.cons.getD i 0xFF#8

instance (path : ℕ → Byte) : Decidable (IsConsole path) := Nat.decidableBallLT _ _

/-- the lowest unused descriptor becomes the console -/
def openConsole (m : FdMap) : U64 × FdMap :=
  match m.unused.min with
  | some i => (BitVec.ofNat 64 i.1, Function.update m i (some .console))
  | none => (BitVec.ofInt 64 (-24), m)

/-- `open`: only the console is found -/
def openPath (m : FdMap) (path : ℕ → Byte) : U64 × FdMap :=
  if IsConsole path then m.openConsole else (BitVec.ofInt 64 (-2), m)

/-- exactly this descriptor becomes unused -/
def close (m : FdMap) (rdi : U64) : U64 × FdMap :=
  match Fds.slot (Fds.intArg rdi) with
  | some i => if m i = none then (BitVec.ofInt 64 (-9), m) else (0, Function.update m i none)
  | none => (BitVec.ofInt 64 (-9), m)

end FdMap

/-- a system call of the reference -/
def FdCall.refer (s : FdState FdMap) (p : ℕ) (m : FdMap) : FdCall → Answer × FdState FdMap
  | .openPath path => (s.setFds p (m.openPath path).2).answer (m.openPath path).1 []
  | .close rdi => (s.setFds p (m.close rdi).2).answer (m.close rdi).1 []
  | .read rdi rdx raw =>
    if (m.at? rdi).any Kind.readable then
      if rdx < 1 then s.answer 0 [] else
      let r := (s.tty.ttyPoll raw).ttyReadline (rdx.setWidth 32)
      { s with tty := r.2.2 }.answer (BitVec.ofNat 64 r.1) r.2.1
    else s.answer (BitVec.ofInt 64 (-9)) []
  | .write rdi buf rdx =>
    if (m.at? rdi).any Kind.writable then
      { s with tty := s.tty.putc ((List.range rdx.toNat).map buf) }.answer rdx []
    else s.answer (BitVec.ofInt 64 (-9)) []
  | .fork memory =>
    if memory then (s.spawn m).answer (BitVec.ofNat 64 s.nextPid) [] else s.answer (BitVec.ofInt 64 (-12)) []

/-- one event in the reference -/
def referenceStep (s : FdState FdMap) : FdEvent → Answer × FdState FdMap
  | .create => (s.spawn .stdio).answer 0 []
  | .call p c =>
    match s.procs p with
    | some m => c.refer s p m
    | none => s.answer 0 []

/-- a write to a descriptor that `open` gave out -/
def WritesOpened (s : FdState FdMap) : FdEvent → Prop
  | .call p (.write rdi _ _) => ∃ m, s.procs p = some m ∧ m.at? rdi = some .console
  | _ => False

/-! ## The table and the map -/

/-- what the kernel stores for it -/
def Kind.code : Kind → FdType
  | .input => .consoleIn
  | .output => .consoleOut
  | .console => .consoleIn

namespace Fds

/-- the table holds the map -/
def Holds (t : Fds) (m : FdMap) : Prop :=
  ∀ i, (t i).inUse = (m i).isSome ∧ ∀ k, m i = some k → (t i).type = k.code

variable {t : Fds} {m : FdMap}

theorem stdio_holds : Holds stdio .stdio := by
  unfold Holds
  decide

theorem Holds.update (h : t.Holds m) (i : Fin procMaxFds) (e : ProcFd) (o : Option Kind) (huse : e.inUse = o.isSome)
    (htype : ∀ k, o = some k → e.type = k.code) : Holds (update t i e) (update m i o) := by
  intro j
  by_cases hj : j = i
  · subst hj
    rw [update_self, update_self]
    exact ⟨huse, htype⟩
  · rw [update_of_ne hj, update_of_ne hj]
    exact h j

/-- what `proc_fd_type` finds -/
theorem Holds.procFdType (h : t.Holds m) (rdi : U64) :
    t.procFdType (intArg rdi) = ((m.at? rdi).map Kind.code).getD .none := by
  unfold Fds.procFdType FdMap.at?
  cases slot (intArg rdi) with
  | none => rfl
  | some i =>
    obtain ⟨huse, htype⟩ := h i
    rw [Option.bind_some]
    dsimp only
    rw [huse]
    cases hm : m i with
    | none => rfl
    | some k =>
      rw [Option.isSome_some, if_pos rfl, htype k hm]
      rfl

theorem code_ne_none (k : Kind) : k.code ≠ .none := by cases k <;> decide

/-- the first free entry is the lowest unused descriptor -/
theorem Holds.procFdAlloc (h : t.Holds m) :
    (BitVec.ofInt 64 (t.procFdAlloc .consoleIn).1 = m.openConsole.1) ∧
    (t.procFdAlloc .consoleIn).2.Holds m.openConsole.2 := by
  have hfree : ∀ i, (!(t i).inUse) = true ↔ i ∈ m.unused := fun i => by
    rw [(h i).1, FdMap.unused, Finset.mem_filter]
    cases m i <;> simp
  unfold Fds.procFdAlloc FdMap.openConsole
  cases hfind : (finRange procMaxFds).find? fun i => !(t i).inUse with
  | none =>
    have hempty : m.unused = ∅ := by
      rw [Finset.eq_empty_iff_forall_notMem]
      intro i hi
      exact find?_eq_none.1 hfind i (mem_finRange i) ((hfree i).2 hi)
    rw [hempty, Finset.min_empty]
    exact ⟨rfl, h⟩
  | some i =>
    have hi : i ∈ m.unused := (hfree i).1 (find?_some (p := fun i => !(t i).inUse) hfind)
    have hmin : m.unused.min = some i := by
      refine le_antisymm (Finset.min_le hi) ?_
      refine Finset.le_min fun j hj => WithTop.coe_le_coe.2 ?_
      by_contra hlt
      rw [not_le] at hlt
      -- an entry before `i` would have been found first
      obtain ⟨-, as, bs, hsplit, has⟩ := find?_eq_some_iff_append.1 hfind
      have hsorted : (as ++ i :: bs).Pairwise (· < ·) := hsplit ▸ pairwise_lt_finRange procMaxFds
      have hmem : j ∈ as ++ i :: bs := hsplit ▸ mem_finRange j
      rcases mem_append.1 hmem with hj' | hj'
      · have := has j hj'
        rw [(hfree j).2 hj] at this
        exact absurd this (by decide)
      · rcases mem_cons.1 hj' with rfl | hj'
        · exact lt_irrefl _ hlt
        · have := (pairwise_cons.1 (pairwise_append.1 hsorted).2.1).1 j hj'
          exact lt_asymm this hlt
    rw [hmin]
    exact ⟨BitVec.ofInt_natCast .., h.update i _ _ rfl fun k hk => by cases hk; rfl⟩

theorem le_scan (path : ℕ → Byte) (cs : List Byte) (i : ℕ) : i ≤ scan path cs i := by
  induction cs generalizing i with
  | nil => exact Nat.le_refl i
  | cons c cs ih =>
    rw [scan]
    split_ifs
    · exact Nat.le_refl i
    · exact Nat.le_of_succ_le (ih (i + 1))
    · exact Nat.le_refl i

/-- the loop of `SYS_open` compares the path with a string -/
theorem scan_spec (path : ℕ → Byte) {str : List Byte} (h0 : ∀ c ∈ str, c ≠ 0) (i : ℕ) :
    (path (scan path (str ++ [0]) i) = 0 ∧ (str ++ [0]).getD (scan path (str ++ [0]) i - i) 0xFF#8 = 0) ↔
      ∀ j < (str ++ [0]).length, path (i + j) = (str ++ [0]).getD j 0xFF#8 := by
  induction str generalizing i with
  | nil =>
    have hi : scan path ([] ++ [0]) i = i := by
      rw [nil_append, scan]
      split_ifs
      · rfl
      · rfl
    rw [hi, Nat.sub_self]
    constructor
    · rintro ⟨h, -⟩ j hj
      obtain rfl : j = 0 := Nat.lt_one_iff.1 hj
      exact h
    · intro h
      exact ⟨h 0 Nat.one_pos, rfl⟩
  | cons c str ih =>
    obtain ⟨hc, h0⟩ := forall_mem_cons.1 h0
    have hcons : ∀ {P : ℕ → Prop}, (∀ j < (c :: str ++ [0]).length, P j) ↔ P 0 ∧
        ∀ j < (str ++ [0]).length, P (j + 1) := by
      intro P
      rw [cons_append, length_cons]
      exact Nat.forall_lt_succ_left
    rw [hcons, cons_append, scan]
    by_cases hpath : path i = c
    · rw [if_pos hpath, if_neg (hpath ▸ hc)]
      have hle := le_scan path (str ++ [0]) (i + 1)
      rw [show scan path (str ++ [0]) (i + 1) - i = (scan path (str ++ [0]) (i + 1) - (i + 1)) + 1 by omega,
        getD_cons_succ, ih h0 (i + 1)]
      simp only [Nat.add_zero, getD_cons_zero, getD_cons_succ, hpath, true_and]
      refine forall₂_congr fun j _ => ?_
      rw [Nat.add_assoc, Nat.add_comm 1 j]
    · rw [if_neg hpath, Nat.sub_self]
      constructor
      · rintro ⟨-, hzero⟩
        exact absurd hzero hc
      · rintro ⟨hzero, -⟩
        exact absurd hzero hpath

theorem scan_console (path : ℕ → Byte) :
    (path (scan path cons 0) ≠ 0 ∨ cons.getD (scan path cons 0) 0xFF#8 ≠ 0) ↔ ¬ FdMap.IsConsole path := by
  have h := @scan_spec path cons.dropLast (by decide) 0
  rw [show cons.dropLast ++ [0] = cons from rfl, Nat.sub_zero] at h
  simp only [Nat.zero_add] at h
  rw [← not_and_or]
  exact not_congr h

/-! ### The calls -/

theorem Holds.sysOpen (h : t.Holds m) (path : ℕ → Byte) :
    (t.sysOpen path).1 = (m.openPath path).1 ∧ (t.sysOpen path).2.Holds (m.openPath path).2 := by
  unfold Fds.sysOpen FdMap.openPath
  dsimp only
  by_cases hpath : FdMap.IsConsole path
  · rw [if_neg ((not_congr (scan_console path)).2 (not_not.2 hpath)), if_pos hpath]
    exact h.procFdAlloc
  · rw [if_pos ((scan_console path).2 hpath), if_neg hpath]
    exact ⟨rfl, h⟩

theorem Holds.sysClose (h : t.Holds m) (rdi : U64) :
    (t.sysClose rdi).1 = (m.close rdi).1 ∧ (t.sysClose rdi).2.Holds (m.close rdi).2 := by
  unfold Fds.sysClose FdMap.close
  rw [h.procFdType, FdMap.at?]
  unfold Fds.procFdFree
  cases hslot : slot (intArg rdi) with
  | none => exact ⟨rfl, h⟩
  | some i =>
    rw [Option.bind_some]
    dsimp only
    cases hm : m i with
    | none =>
      simp only [Option.map_none, Option.getD_none, if_true]
      exact ⟨trivial, h⟩
    | some k =>
      simp only [Option.map_some, Option.getD_some, code_ne_none, if_false, reduceCtorEq]
      exact ⟨trivial, h.update i _ _ rfl fun k' hk' => by cases hk'⟩

theorem Holds.sysRead (h : t.Holds m) (rdi rdx : U64) (raw : List Byte) (tty : Tty) :
    t.sysRead rdi rdx raw tty =
      if (m.at? rdi).any Kind.readable then
        if rdx < 1 then (0, [], tty) else
          (BitVec.ofNat 64 ((tty.ttyPoll raw).ttyReadline (rdx.setWidth 32)).1,
            ((tty.ttyPoll raw).ttyReadline (rdx.setWidth 32)).2)
      else (BitVec.ofInt 64 (-9), [], tty) := by
  unfold Fds.sysRead
  rw [h.procFdType]
  cases hm : m.at? rdi with
  | none => rfl
  | some k => cases k <;> rfl

/-- the table does not tell a descriptor from `open` from the one for input -/
theorem Holds.sysWrite (h : t.Holds m) (rdi : U64) (buf : ℕ → Byte) (rdx : U64) (tty : Tty) :
    t.sysWrite rdi buf rdx tty =
      if (m.at? rdi).any Kind.writable ∧ m.at? rdi ≠ some .console then
        (rdx, tty.putc ((List.range rdx.toNat).map buf))
      else (BitVec.ofInt 64 (-9), tty) := by
  unfold Fds.sysWrite
  rw [h.procFdType]
  cases hm : m.at? rdi with
  | none => rfl
  | some k => cases k <;> rfl

end Fds

/-! ## Kernel and reference -/

/-- the two states hold the same processes, with the same descriptors -/
structure FdState.Agrees (s : FdState Fds) (r : FdState FdMap) : Prop where
  procs : ∀ p, match s.procs p, r.procs p with
    | some t, some m => t.Holds m
    | none, none => True
    | _, _ => False
  pid : s.nextPid = r.nextPid
  tty : s.tty = r.tty

section Steps

variable {s : FdState Fds} {r : FdState FdMap} {t : Fds} {m : FdMap}

theorem FdState.Agrees.setFds (h : s.Agrees r) (p : ℕ) (ht : t.Holds m) : (s.setFds p t).Agrees (r.setFds p m) := by
  refine ⟨fun q => ?_, h.pid, h.tty⟩
  simp only [FdState.setFds, Function.update_apply]
  split_ifs with hq
  · exact ht
  · exact h.procs q

theorem FdState.Agrees.spawn (h : s.Agrees r) (ht : t.Holds m) : (s.spawn t).Agrees (r.spawn m) := by
  have h' := h.setFds s.nextPid ht
  rw [FdState.spawn, FdState.spawn, ← h.pid]
  exact ⟨h'.procs, rfl, h'.tty⟩

theorem FdState.Agrees.setTty (h : s.Agrees r) (tty : Tty) :
    ({ s with tty := tty } : FdState Fds).Agrees { r with tty := tty } :=
  ⟨h.procs, h.pid, rfl⟩

theorem putc_ne (tty : Tty) {cs : List Byte} (h : cs ≠ []) : tty.putc cs ≠ tty := by
  intro hc
  have hecho : tty.echo ++ cs = tty.echo := congrArg Tty.echo hc
  exact h (append_right_eq_self.1 hecho)

theorem FdState.Agrees.answer (h : s.Agrees r) (rax : U64) (buf : List Byte) :
    (s.answer rax buf).1 = (r.answer rax buf).1 ∧ (s.answer rax buf).2.Agrees (r.answer rax buf).2 := by
  refine ⟨?_, h⟩
  rw [FdState.answer, FdState.answer, h.tty]

/-- a system call other than a write to a descriptor from `open` -/
theorem dispatch_agrees (h : s.Agrees r) (p : ℕ) (ht : t.Holds m) (c : FdCall)
    (hc : ∀ rdi buf rdx, c = .write rdi buf rdx → m.at? rdi ≠ some .console) :
    (c.dispatch s p t).1 = (c.refer r p m).1 ∧ (c.dispatch s p t).2.Agrees (c.refer r p m).2 := by
  cases c with
  | openPath path =>
    obtain ⟨hr, hm⟩ := ht.sysOpen path
    simp only [FdCall.dispatch, FdCall.refer, hr]
    exact (h.setFds p hm).answer _ _
  | close rdi =>
    obtain ⟨hr, hm⟩ := ht.sysClose rdi
    simp only [FdCall.dispatch, FdCall.refer, hr]
    exact (h.setFds p hm).answer _ _
  | read rdi rdx raw =>
    simp only [FdCall.dispatch, FdCall.refer, ht.sysRead, h.tty]
    split_ifs
    · exact (h.setTty r.tty).answer _ _
    · exact (h.setTty _).answer _ _
    · exact (h.setTty r.tty).answer _ _
  | write rdi buf rdx =>
    simp only [FdCall.dispatch, FdCall.refer, ht.sysWrite, h.tty, ne_eq, hc rdi buf rdx rfl, not_false_eq_true,
      and_true]
    split_ifs
    · exact (h.setTty _).answer _ _
    · exact (h.setTty r.tty).answer _ _
  | fork memory =>
    simp only [FdCall.dispatch, FdCall.refer, h.pid]
    cases memory with
    | true => exact (h.spawn ht).answer _ _
    | false => exact h.answer _ _

/-- a write to a descriptor from `open` is refused, where the reference prints -/
theorem dispatch_write_opened (h : s.Agrees r) (p : ℕ) (ht : t.Holds m) {rdi rdx : U64} {buf : ℕ → Byte}
    (hm : m.at? rdi = some .console) :
    ((FdCall.write rdi buf rdx).dispatch s p t).1 ≠ ((FdCall.write rdi buf rdx).refer r p m).1 := by
  simp only [FdCall.dispatch, FdCall.refer, ht.sysWrite, hm, ne_eq, not_true_eq_false, and_false, if_false,
    FdState.answer, h.tty, Answer.mk.injEq, Option.any_some, Kind.writable, if_true, true_and, not_and]
  intro hrdx htty
  refine putc_ne r.tty ?_ htty.symm
  rw [← hrdx, ne_eq, map_eq_nil_iff, range_eq_nil]
  decide

/-- **One event.** Kernel and reference answer alike and go on alike, just if it is not a write to a descriptor from
`open`. -/
theorem step_agrees (h : s.Agrees r) (e : FdEvent) :
    ((kernelStep s e).1 = (referenceStep r e).1 ↔ ¬ WritesOpened r e) ∧
      (¬ WritesOpened r e → (kernelStep s e).2.Agrees (referenceStep r e).2) := by
  cases e with
  | create =>
    obtain ⟨h1, h2⟩ := (h.spawn Fds.stdio_holds).answer 0 []
    exact ⟨iff_of_true h1 id, fun _ => h2⟩
  | call p c =>
    have hp := h.procs p
    cases hs : s.procs p with
    | none =>
      cases hr : r.procs p with
      | some m => simp [hs, hr] at hp
      | none =>
        obtain ⟨h1, h2⟩ := h.answer 0 []
        have hnot : ¬ WritesOpened r (.call p c) := by
          cases c with
          | write rdi buf rdx =>
            rintro ⟨m, hm, -⟩
            rw [hr] at hm
            cases hm
          | _ => exact id
        simp only [kernelStep, referenceStep, hs, hr]
        exact ⟨iff_of_true h1 hnot, fun _ => h2⟩
    | some t =>
      cases hr : r.procs p with
      | none => simp [hs, hr] at hp
      | some m =>
        rw [hs, hr] at hp
        simp only [kernelStep, referenceStep, hs, hr]
        by_cases hopened : WritesOpened r (.call p c)
        · refine ⟨iff_of_false ?_ (not_not.2 hopened), fun hc => absurd hopened hc⟩
          cases c with
          | write rdi buf rdx =>
            obtain ⟨m', hm', hat⟩ := hopened
            rw [hr, Option.some.injEq] at hm'
            subst hm'
            exact dispatch_write_opened h p hp hat
          | _ => exact hopened.elim
        · obtain ⟨h1, h2⟩ := dispatch_agrees h p hp c fun rdi buf rdx hc hat => hopened (by
            subst hc
            exact ⟨m, hr, hat⟩)
          exact ⟨iff_of_true h1 hopened, fun _ => h2⟩

end Steps

/-! ## Runs -/

/-- the answers of a run, and its last state -/
def runEvents {fds : Type} (step : FdState fds → FdEvent → Answer × FdState fds) :
    FdState fds → List FdEvent → List Answer × FdState fds
  | s, [] => ([], s)
  | s, e :: es => ((step s e).1 :: (runEvents step (step s e).2 es).1, (runEvents step (step s e).2 es).2)

/-- no event of the run writes to a descriptor from `open` -/
def NoWriteToOpened : FdState FdMap → List FdEvent → Prop
  | _, [] => True
  | r, e :: es => ¬ WritesOpened r e ∧ NoWriteToOpened (referenceStep r e).2 es

/-- no process yet -/
def FdState.boot (fds : Type) (tty : Tty) : FdState fds := ⟨fun _ => none, 1, tty⟩

/-- **File descriptors.** For all calls of `open`, `close`, `read`, `write` and `fork` by any processes, the kernel
answers as the reference does just if no process writes to a descriptor that it has from `open`. -/
theorem fd_calls_agree (tty : Tty) (es : List FdEvent) :
    (runEvents kernelStep (.boot Fds tty) es).1 = (runEvents referenceStep (.boot FdMap tty) es).1 ↔
      NoWriteToOpened (.boot FdMap tty) es := by
  have hrun : ∀ (s : FdState Fds) (r : FdState FdMap), s.Agrees r →
      ((runEvents kernelStep s es).1 = (runEvents referenceStep r es).1 ↔ NoWriteToOpened r es) := by
    induction es with
    | nil => exact fun s r _ => iff_of_true rfl trivial
    | cons e es ih =>
      intro s r h
      obtain ⟨hstep, hnext⟩ := step_agrees h e
      simp only [runEvents, NoWriteToOpened, List.cons.injEq, hstep]
      exact and_congr_right fun hnot => ih _ _ (hnext hnot)
  exact hrun _ _ ⟨fun _ => trivial, rfl, rfl⟩

/-- a process opens the console and writes a byte to it -/
def openThenWrite : List FdEvent :=
  [.create, .call 1 (.openPath fun i => Fds.cons.getD i 0), .call 1 (.write 3 (fun _ => 0x61#8) 1)]

/-- **The descriptor from `open("/dev/console")` is 3**, and a write to it returns -9. -/
theorem opened_not_writable :
    (runEvents kernelStep (.boot Fds Tty.cleared) openThenWrite).1.map Answer.rax = [0, 3, BitVec.ofInt 64 (-9)] ∧
      (runEvents referenceStep (.boot FdMap Tty.cleared) openThenWrite).1.map Answer.rax = [0, 3, 1] := by
  constructor
  · decide +kernel
  · decide +kernel

end Uix
