/-
The context switch (`switch_to` in `src/arch/x86_64/switch.S`), as `schedule` calls it: `switch_to(&prev->rsp,
next->rsp)`.

Each task has a kernel stack of its own, and a cell for its stack pointer in its task structure. Between switches the
running task does anything to its registers and to its own stack. What a task was doing when it called `switch_to` is
kept as a ghost (`suspended`): the processor before the call, and the address that the call returns to.

- `switchTo_run`: the call leaves the callee-saved registers and the return address on the stack of the caller, stores
  the stack pointer, and goes on with the frame of the next task.
- `Parked`: the frame of a suspended task is on its stack, below what it had there.
- `reached_parked`: so it stays whatever the other tasks do.
- `switch_to_resumes`: a task that is switched to goes on as it was at its own call.
-/
import Uix.Lib.Machine
import Uix.Lib.X64

namespace Uix.Switch

open Machine Bytes X64 List Function

/-- the callee-saved registers, in the order in which `switch_to` pushes them -/
def calleeSaved : List Reg := [.rbp, .rbx, .r12, .r13, .r14, .r15]

/-- `switch_to` -/
def switchTo : List Instr :=
  [.push .rbp, .push .rbx, .push .r12, .push .r13, .push .r14, .push .r15,
    .movTo .rsp .rdi, .mov .rsi .rsp,
    .pop .r15, .pop .r14, .pop .r13, .pop .r12, .pop .rbx, .pop .rbp, .ret]

/-- `call switch_to`, which returns to `ret` -/
def callSwitchTo (c : Cpu) (ret : BitVec 64) : Cpu := (c.pushWord ret).run switchTo

/-- the callee-saved registers as they lie on the stack, from its stack pointer on; above them is the return address -/
def savedWords (c : Cpu) : List (BitVec 64) := (calleeSaved.map c.regs).reverse

/-- the bytes it needs: seven words -/
def switchBytes : ℕ := 56

/-! ## The call -/

/-- what `switch_to` does to the stack that it leaves: `c'` is `c` at the store of the stack pointer -/
theorem pushes_spec {c : Cpu} (ret : BitVec 64) (h : switchBytes ≤ c.sp) :
    Cpu.Pushed c ((c.pushWord ret).run (calleeSaved.map .push)) (ret :: calleeSaved.map c.regs) := by
  have hsaved : calleeSaved.map (c.pushWord ret).regs = calleeSaved.map c.regs := by
    refine map_congr_left fun r hr => Cpu.pushWord_regs ?_
    rintro rfl
    exact absurd hr (by decide)
  have hlen : 8 * (ret :: calleeSaved.map c.regs).length = switchBytes := by
    rw [length_cons, length_map]
    rfl
  rw [Cpu.run_push (by decide), hsaved, ← Cpu.pushWords_cons]
  exact Cpu.pushWords_spec (hlen.trans_le h)

/-- two ranges of addresses have nothing in common -/
def Apart (a n b k : ℕ) : Prop := a + n ≤ b ∨ b + k ≤ a

/-- the frame of the caller `c` is on its stack, and its stack pointer in its cell -/
structure Saved (c : Cpu) (ret : BitVec 64) (m : ℕ → BitVec 8) : Prop where
  outside : ∀ a, (a < c.sp - switchBytes ∨ c.sp ≤ a) → (a < (c.regs .rdi).toNat ∨ (c.regs .rdi).toNat + 8 ≤ a) →
    m a = c.mem a
  cell : load m (c.regs .rdi).toNat 8 = c.sp - switchBytes
  frame : Frame m (c.sp - switchBytes) (savedWords c ++ [ret])

/-- the processor where `switch_to` has changed stacks -/
def halfway (c : Cpu) (ret : BitVec 64) : Cpu :=
  (((c.pushWord ret).run (calleeSaved.map .push)).exec (.movTo .rsp .rdi)).exec (.mov .rsi .rsp)

theorem callSwitchTo_eq (c : Cpu) (ret : BitVec 64) :
    callSwitchTo c ret = ((halfway c ret).run (calleeSaved.reverse.map .pop)).exec .ret := rfl

/-- the second half of `switch_to` writes nothing -/
theorem callSwitchTo_mem (c : Cpu) (ret : BitVec 64) : (callSwitchTo c ret).mem = (halfway c ret).mem := by
  rw [callSwitchTo_eq, (Cpu.exec_ret _).2.1, Cpu.run_pop_mem]

/-- **The first half**: the caller is saved, and the stack pointer is that of the next task. -/
theorem halfway_spec {c : Cpu} (ret : BitVec 64) (hroom : switchBytes ≤ c.sp)
    (hcell : Apart (c.regs .rdi).toNat 8 (c.sp - switchBytes) switchBytes) :
    Saved c ret (halfway c ret).mem ∧ (halfway c ret).sp = (c.regs .rsi).toNat := by
  have P := pushes_spec ret hroom
  rw [halfway]
  generalize (c.pushWord ret).run (calleeSaved.map .push) = c1 at P
  obtain ⟨hmemT, hregsT⟩ := c1.exec_movTo .rsp .rdi
  obtain ⟨hregM, hmemM⟩ := (c1.exec (.movTo .rsp .rdi)).exec_mov .rsi .rsp
  have hsp1 : c1.sp = c.sp - switchBytes := by
    have := P.sp
    rw [length_cons, length_map] at this
    change c1.sp + switchBytes = c.sp at this
    omega
  rw [hmemM, hmemT, P.regs .rdi (by decide), show (c1.regs .rsp).toNat = c1.sp from rfl]
  refine ⟨⟨?_, ?_, ?_⟩, ?_⟩
  · intro a h1 h2
    rw [store_of_lt h2, P.outside a (by omega)]
  · rw [load_store_eq (BitVec.isLt _), hsp1]
  · have hrev : (ret :: calleeSaved.map c.regs).reverse = savedWords c ++ [ret] := reverse_cons
    rw [← hsp1, ← hrev]
    refine P.frame.congr fun x h1 h2 => store_of_lt ?_
    rw [length_reverse, length_cons, length_map] at h2
    change x < c1.sp + switchBytes at h2
    simp only [Apart] at hcell
    omega
  · rw [Cpu.sp, hregM, hregsT, P.regs .rsi (by decide)]

/-- **The second half** takes the registers and the return address from a frame. -/
theorem callSwitchTo_loads {c : Cpu} {ret w : BitVec 64} {vs : List (BitVec 64)} (hlen : vs.length = 6)
    (hwrap : (halfway c ret).sp + switchBytes < 2 ^ 64)
    (hframe : Frame (halfway c ret).mem (halfway c ret).sp (vs ++ [w])) :
    (callSwitchTo c ret).sp = (halfway c ret).sp + switchBytes ∧ (callSwitchTo c ret).rip = w ∧
      ∀ p ∈ calleeSaved.reverse.zip vs, (callSwitchTo c ret).regs p.1 = p.2 := by
  rw [callSwitchTo_eq]
  generalize halfway c ret = c3 at hwrap hframe
  obtain ⟨hregs, htop⟩ := frame_append.1 hframe
  have hcount : calleeSaved.reverse.length = 6 := rfl
  have Q := @Cpu.run_pop c3 vs calleeSaved.reverse (by decide) (by decide) (by rw [hlen, hcount]) (by
    rw [switchBytes] at hwrap
    omega) hregs
  generalize c3.run (calleeSaved.reverse.map .pop) = c4 at Q
  obtain ⟨hspR, -, hripR, hregsR⟩ := c4.exec_ret
  have hsp4 := Q.sp
  rw [hcount] at hsp4
  rw [hlen, ← Q.mem, ← hsp4] at htop
  rw [switchBytes] at hwrap ⊢
  refine ⟨?_, ?_, fun p hp => ?_⟩
  · rw [Cpu.sp, hspR, Cpu.add_eight_sp (by omega), hsp4]
  · rw [hripR, Cpu.top_of_frame htop]
  · have hne : p.1 ≠ .rsp := by
      intro hc
      have hsaved := (of_mem_zip hp).1
      rw [hc] at hsaved
      exact absurd hsaved (by decide)
    rw [hregsR _ hne, Q.regs p hp]

theorem mem_savedWords (c : Cpu) {r : Reg} (hr : r ∈ calleeSaved) :
    (r, c.regs r) ∈ calleeSaved.reverse.zip (savedWords c) := by
  simp only [calleeSaved, savedWords, mem_cons, not_mem_nil, or_false] at hr ⊢
  rcases hr with rfl | rfl | rfl | rfl | rfl | rfl <;> simp

/-! ## Tasks -/

/-- where the tasks have their kernel stacks, and the cells of their stack pointers -/
structure Layout (ι : Type) where
  lo : ι → ℕ
  hi : ι → ℕ
  cell : ι → ℕ
  disjoint : ∀ t u, t ≠ u → hi t ≤ lo u ∨ hi u ≤ lo t
  cells : ∀ t u, t ≠ u → Apart (cell t) 8 (cell u) 8
  outside : ∀ t u, cell t + 8 ≤ lo u ∨ hi u ≤ cell t

/-- the processor, the running task, and what the others were doing when they called `switch_to` -/
structure System (ι : Type) where
  cpu : Cpu
  cur : ι
  suspended : ι → Option (Cpu × BitVec 64)

inductive Act (ι : Type) where
  | work
  | switch (next : ι)

section Tasks

variable {ι : Type} [DecidableEq ι] {L : Layout ι} {s s' : System ι} {t : ι} {c : Cpu} {ret : BitVec 64}
  {m m' : ℕ → BitVec 8}

/-- the running task works with its registers and its own stack, or calls `switch_to(&prev->rsp, next->rsp)` for another
task with enough of its stack left -/
inductive Step (L : Layout ι) : System ι → Act ι → System ι → Prop
  | work (s : System ι) (c : Cpu) (hmem : ∀ a, ¬ (L.lo s.cur ≤ a ∧ a < L.hi s.cur) → c.mem a = s.cpu.mem a) :
    Step L s .work { s with cpu := c }
  | switch (s : System ι) (next : ι) (ret : BitVec 64) (hne : next ≠ s.cur)
    (hroom : L.lo s.cur + switchBytes ≤ s.cpu.sp ∧ s.cpu.sp ≤ L.hi s.cur)
    (hprev : (s.cpu.regs .rdi).toNat = L.cell s.cur)
    (hnext : (s.cpu.regs .rsi).toNat = load s.cpu.mem (L.cell next) 8) :
    Step L s (.switch next) ⟨callSwitchTo s.cpu ret, next,
      Function.update (Function.update s.suspended s.cur (some (s.cpu, ret))) next none⟩

/-- the frame of a task that called `switch_to` in the state `c` is on its stack, below what was there -/
structure Parked (L : Layout ι) (m : ℕ → BitVec 8) (t : ι) (c : Cpu) (ret : BitVec 64) : Prop where
  room : L.lo t + switchBytes ≤ c.sp ∧ c.sp ≤ L.hi t
  cell : load m (L.cell t) 8 = c.sp - switchBytes
  frame : Frame m (c.sp - switchBytes) (savedWords c ++ [ret])
  above : ∀ a, c.sp ≤ a → a < L.hi t → m a = c.mem a

omit [DecidableEq ι] in
theorem savedFrame_length (c : Cpu) (ret : BitVec 64) : 8 * (savedWords c ++ [ret]).length = switchBytes := by
  rw [length_append, savedWords, length_reverse, length_map]
  rfl

omit [DecidableEq ι] in
/-- nobody else writes to its stack or its cell -/
theorem Parked.congr (P : Parked L m t c ret) (hstack : ∀ a, L.lo t ≤ a → a < L.hi t → m' a = m a)
    (hcell : ∀ a, L.cell t ≤ a → a < L.cell t + 8 → m' a = m a) : Parked L m' t c ret := by
  obtain ⟨h1, h2⟩ := P.room
  refine ⟨P.room, ?_, ?_, fun a ha hlt => ?_⟩
  · rw [load_congr hcell, P.cell]
  · refine P.frame.congr fun x hx hlt => hstack x (by omega) ?_
    rw [savedFrame_length] at hlt
    omega
  · rw [hstack a (by omega) hlt, P.above a ha hlt]

/-- every suspended task is parked -/
def AllParked (L : Layout ι) (s : System ι) : Prop :=
  ∀ t c ret, s.suspended t = some (c, ret) → t ≠ s.cur ∧ Parked L s.cpu.mem t c ret

/-- **One step** keeps the frames of the suspended tasks. -/
theorem step_parked {a : Act ι} (h : AllParked L s) (hstep : Step L s a s') : AllParked L s' := by
  cases hstep with
  | work c hmem =>
    intro t c' ret ht
    obtain ⟨hne, P⟩ := h t c' ret ht
    refine ⟨hne, P.congr (fun a h1 h2 => hmem a ?_) fun a h1 h2 => hmem a ?_⟩
    · have := L.disjoint t s.cur hne
      omega
    · have := L.outside t s.cur
      omega
  | switch next ret hne hroom hprev hnext =>
    have hout := L.outside s.cur s.cur
    obtain ⟨S, -⟩ := @halfway_spec s.cpu ret (by omega) (by rw [hprev, Apart]; omega)
    rw [← callSwitchTo_mem] at S
    have hkept := S.outside
    rw [hprev] at hkept
    intro t c' ret' ht
    dsimp only at ht ⊢
    by_cases htn : t = next
    · rw [htn, update_self] at ht
      cases ht
    rw [update_of_ne htn] at ht
    refine ⟨htn, ?_⟩
    by_cases htc : t = s.cur
    · -- the caller itself
      subst htc
      rw [update_self, Option.some.injEq, Prod.mk.injEq] at ht
      obtain ⟨rfl, rfl⟩ := ht
      refine ⟨hroom, ?_, S.frame, fun a h1 h2 => hkept a (.inr h1) (by omega)⟩
      rw [← hprev]
      exact S.cell
    · rw [update_of_ne htc] at ht
      obtain ⟨-, P⟩ := h t c' ret' ht
      have hstacks := L.disjoint t s.cur htc
      have hcells : Apart (L.cell t) 8 (L.cell s.cur) 8 := L.cells t s.cur htc
      have h1 := L.outside s.cur t
      have h2 := L.outside t s.cur
      rw [Apart] at hcells
      exact P.congr (fun a _ _ => hkept a (by omega) (by omega)) fun a _ _ => hkept a (by omega) (by omega)

/-- **Any run** keeps them. -/
theorem reached_parked {s₀ : System ι} {acts : List (Act ι)} (h₀ : ∀ t, s₀.suspended t = none)
    (hrun : Steps (Step L) s₀ acts s) : AllParked L s := by
  refine hrun.inv (fun _ _ _ h hstep => step_parked h hstep) ?_
  intro t c ret ht
  rw [h₀ t] at ht
  cases ht

/-- the processor `c'` goes on where `c` called `switch_to`, on the stack of task `t` -/
structure Resumed (L : Layout ι) (t : ι) (c c' : Cpu) (ret : BitVec 64) : Prop where
  rip : c'.rip = ret
  rsp : c'.regs .rsp = c.regs .rsp
  saved : ∀ r ∈ calleeSaved, c'.regs r = c.regs r
  stack : ∀ a, c.sp ≤ a → a < L.hi t → c'.mem a = c.mem a

/-- **Context switches.** In every run of any tasks on disjoint stacks: a suspended task that is switched to goes on at
the return address of its own last call of `switch_to`, with `rsp`, the callee-saved registers and its stack above `rsp`
as they were at that call. -/
theorem switch_to_resumes (L : Layout ι) (s₀ s s' : System ι) (acts : List (Act ι)) (next : ι) (c : Cpu)
    (ret : BitVec 64)
    (h₀ : ∀ t, s₀.suspended t = none) (hrun : Steps (Step L) s₀ acts s) (hstep : Step L s (.switch next) s')
    (hsusp : s.suspended next = some (c, ret)) : Resumed L next c s'.cpu ret := by
  obtain ⟨-, P⟩ := reached_parked h₀ hrun next c ret hsusp
  cases hstep with
  | switch _ ret' hne hroom hprev hnext =>
    have hout := L.outside s.cur s.cur
    have hout' := L.outside s.cur next
    have hstacks := L.disjoint next s.cur hne
    have hbound : c.sp < 2 ^ 64 := BitVec.isLt _
    obtain ⟨h1, h2⟩ := P.room
    obtain ⟨S, hsp⟩ := @halfway_spec s.cpu ret' (by omega) (by rw [hprev, Apart]; omega)
    have hkept := S.outside
    rw [hprev] at hkept
    rw [hnext, P.cell] at hsp
    have hframe : Frame (halfway s.cpu ret').mem (halfway s.cpu ret').sp (savedWords c ++ [ret]) := by
      rw [hsp]
      refine P.frame.congr fun x hx hlt => ?_
      rw [savedFrame_length] at hlt
      exact hkept x (by omega) (by omega)
    obtain ⟨hsp', hrip, hregs⟩ := callSwitchTo_loads (by rfl) (by rw [hsp]; omega) hframe
    constructor
    case rip => exact hrip
    case rsp =>
      refine BitVec.eq_of_toNat_eq ?_
      change (callSwitchTo s.cpu ret').sp = c.sp
      rw [hsp', hsp]
      omega
    case saved => exact fun r hr => hregs _ (mem_savedWords c hr)
    case stack =>
      intro a h3 h4
      rw [callSwitchTo_mem, hkept a (by omega) (by omega), P.above a h3 h4]

end Tasks

/-! ### Two tasks -/

/-- two stacks of 4 KiB -/
def twoTasks : Layout Bool where
  lo t := if t then 0x3000 else 0x1000
  hi t := if t then 0x4000 else 0x2000
  cell t := if t then 0x108 else 0x100
  disjoint := by decide
  cells := by unfold Apart; decide
  outside := by decide

/-- a processor about to call `switch_to`, on the stack that ends at `sp`, for the saved stack pointer in `cell` -/
def aboutTo (m : ℕ → BitVec 8) (sp prev cell : ℕ) : Cpu :=
  ⟨fun r => if r = .rsp then BitVec.ofNat 64 sp else if r = .rdi then BitVec.ofNat 64 prev else
    BitVec.ofNat 64 (load m cell 8), 0, m⟩

theorem aboutTo_rsi (m : ℕ → BitVec 8) (sp prev cell : ℕ) :
    ((aboutTo m sp prev cell).regs .rsi).toNat = load m cell 8 := by
  change (BitVec.ofNat 64 (load m cell 8)).toNat = _
  rw [BitVec.toNat_ofNat]
  exact Nat.mod_eq_of_lt (load_lt m cell 8)

/-- the first task, on a memory of zeros -/
def firstCall : System Bool := ⟨aboutTo (fun _ => 0) 0x2000 0x100 0x108, false, fun _ => none⟩

/-- the second task has been switched to, and has set up its own call -/
def secondCall (m : ℕ → BitVec 8) : System Bool :=
  ⟨aboutTo m 0x4000 0x108 0x100, true,
    Function.update (Function.update (fun _ => none) false (some (firstCall.cpu, 0x42#64))) true none⟩

/-- the first task calls `switch_to`, and goes on at 0x42 when the second one has called it -/
theorem switch_to_and_back : ∃ m s', Steps (Step twoTasks) firstCall [.switch true, .work] (secondCall m) ∧
    Step twoTasks (secondCall m) (.switch false) s' ∧ Resumed twoTasks false firstCall.cpu s'.cpu 0x42#64 := by
  have h1 := @Step.switch _ _ twoTasks firstCall true 0x42#64 (by decide) ⟨by decide, by decide⟩ (by decide)
    (aboutTo_rsi _ _ _ _)
  obtain ⟨m, hm⟩ : ∃ m, (callSwitchTo firstCall.cpu 0x42#64).mem = m := ⟨_, rfl⟩
  have h2 : Step twoTasks _ .work (secondCall m) := @Step.work _ _ twoTasks
    ⟨callSwitchTo firstCall.cpu 0x42#64, true, (secondCall m).suspended⟩ (secondCall m).cpu fun a _ =>
      (congrFun hm a).symm
  have h3 := @Step.switch _ _ twoTasks (secondCall m) false 0#64 (show false ≠ true by decide)
    ⟨show 0x3000 + switchBytes ≤ (0x4000#64).toNat by decide, show (0x4000#64).toNat ≤ 0x4000 by decide⟩
    (show (0x108#64).toNat = 0x108 by decide) (aboutTo_rsi m 0x4000 0x108 0x100)
  have hrun : Steps (Step twoTasks) firstCall [.switch true, .work] (secondCall m) := .cons h1 (.cons h2 (.nil _))
  exact ⟨m, _, hrun, h3,
    switch_to_resumes twoTasks firstCall (secondCall m) _ _ false firstCall.cpu 0x42#64 (fun _ => rfl) hrun h3 rfl⟩

end Uix.Switch
