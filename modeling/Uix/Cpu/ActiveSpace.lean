/-
Does a user task run on its own address space? The scheduler, the memory manager and the file system together, over runs
of `user_task_create` at boot, ticks, yields, forks, exits, `wait4` and `execve` calls, and of writes by the user
programs.

`vmm_switch` sets the variable `pml4` and the register CR3 together, and `schedule()` calls it for each task that has a
space of its own. The variables `pml4` and `kernel_cr3` are words of physical memory: a store that reaches their page
changes them. `wait4` stores the child's status wherever it is told to, so a user task can have it stored to `pml4`.

- `Housed`: the spaces of the user tasks are in order, and the kernel's own pages are outside the pool they are made
  from.
- `Inv.step`: one step keeps the current user task on its own space.
- `own_space`: so does every run in which no `wait4` is given a status pointer into the kernel half, no image is loaded
  there, no fork meets a page from 4 GiB on, and no `execve` meets a page that another user task maps too and whose
  count is 1.
- `pml4_overwritten`: a user task goes on with the exit status of its child in `pml4`.
-/
import Uix.Cpu.ImageSecrets
import Uix.Cpu.SchedSpace

namespace Uix

open Machine Radix Radix.Format List Function Kern
open Pmm (pageIdx pageAddr)

/-- a variable of the kernel: its address, and the word of physical memory that holds it -/
structure Var where
  addr : U64
  page : ℕ
  slot : Fin 512

namespace Var

def get (v : Var) (m : PhysMem) : U64 := m v.page v.slot

def set (v : Var) (x : U64) (m : PhysMem) : PhysMem := update m v.page (update (m v.page) v.slot x)

variable {v w : Var} {m : PhysMem} {x : U64}

@[simp] theorem get_set : v.get (v.set x m) = x := by rw [get, set, update_self, update_self]

theorem get_set_of_ne (h : w.page = v.page → w.slot ≠ v.slot) : w.get (v.set x m) = w.get m := by
  unfold get set
  by_cases hp : w.page = v.page
  · rw [hp, update_self, update_of_ne (h hp)]
  · rw [update_of_ne hp]

@[simp] theorem set_get : v.set (v.get m) m = m := by rw [set, get, update_eq_self, update_eq_self]

end Var

/-- the state of the kernel -/
structure Sys where
  sched : Sched
  mem : PhysMem
  pmm : Pmm
  fs : Uixfs

/-- where the linker and the boot loader put things: the HHDM, `user_launch_trampoline`, and the variables `pml4` and
`kernel_cr3` -/
structure Layout where
  hhdm : U64
  trampoline : U64
  pml4 : Var
  kernelCr3 : Var

namespace Sys

/-! ## Steps -/

/-- the physical address that `pml4` denotes: what it points to, less the offset of the HHDM -/
def pml4 (L : Layout) (s : Sys) : PAddr := L.pml4.get s.mem - L.hhdm

/-- the scheduler, with the variable `kernel_cr3` as it is -/
def scheduler (L : Layout) (s : Sys) : Sched := { s.sched with kernelCr3 := L.kernelCr3.get s.mem }

/-- the memory manager's part of the state -/
def core (L : Layout) (s : Sys) : Kern := ⟨s.mem, s.pmm, pageIdx (s.pml4 L), s.sched.space, L.kernelCr3.get s.mem⟩

/-- a `pml4` that points into the middle of a page is not followed -/
def kern (L : Layout) (s : Sys) : Except Stop Kern :=
  if pageAddr (pageIdx (s.pml4 L)) = s.pml4 L then .ok (s.core L) else .error .wild

/-- after a call that does not switch spaces -/
def setMem (s : Sys) (k : Kern) : Sys := { s with mem := k.mem, pmm := k.pmm }

/-- after a call that does: the last `vmm_switch` has set `pml4` and CR3. An image that was loaded over the two
variables is not followed. -/
def setKern (L : Layout) (s : Sys) (k : Kern) : Except Stop Sys :=
  if L.pml4.get k.mem = L.pml4.get s.mem ∧ L.kernelCr3.get k.mem = L.kernelCr3.get s.mem then
    .ok { s with
      mem := L.pml4.set (pageAddr k.pml4 + L.hhdm) k.mem, pmm := k.pmm, sched := { s.sched with space := k.cr3 } }
  else .error .wild

/-- the argument of `vmm_switch` in `schedule()`: it is called for the task entered, if that has a space of its own -/
def switchedTo (s s' : Sched) : Option PAddr :=
  if s'.current = s.current then none else
  match s'.tasks s'.current with
  | some y => if y.cr3 ≠ 0 ∧ y.cr3 ≠ s.kernelCr3 then some y.cr3 else none
  | none => none

/-- the scheduler has gone on to `sched` -/
def enter (L : Layout) (s : Sys) (sched : Sched) : Sys :=
  { s with
    sched := sched
    mem := match switchedTo (s.scheduler L) sched with
      | some cr3 => L.pml4.set (cr3 + L.hhdm) s.mem
      | none => s.mem }

/-- `*(u64 *)status_uptr = v`. In the kernel half the stores to the two variables are followed, and no others. -/
def storeStatus (L : Layout) (s : Sys) (status v : U64) : Except Stop Sys :=
  if status < userEnd then do
    let k ← s.kern L
    let k ← Kern.writeBytes (Kern.wordBytes v) status k
    pure (s.setMem k)
  else if status = L.pml4.addr then pure { s with mem := L.pml4.set v s.mem }
  else if status = L.kernelCr3.addr then pure { s with mem := L.kernelCr3.set v s.mem }
  else .error .wild

/-- ... if `wait4` has one to store -/
def deliver (L : Layout) (s : Sys) (status : U64) : Option U64 → Except Stop Sys
  | some v => s.storeStatus L status v
  | none => pure s

inductive Op where
  /-- what the scheduler does on its own -/
  | sched (o : Sched.Op)
  | create (t kstack : ℕ) (img : Image)
  | fork (t kstack : ℕ)
  /-- `execve(upath)`; the programs, the disk and the kernel stack of the task are what the call finds -/
  | execve (env : ExecEnv) (upath : U64) (found : ExecTask)
  /-- a store by the user program -/
  | write (va : UserAddr) (b : BitVec 8)

def step (L : Layout) (s : Sys) : Op → Except Stop Sys
  | .sched o => do
    let sched ← Sched.step (s.scheduler L) o
    -- the status is stored before the child is marked DEAD
    let s ← s.deliver L (Sched.statusPtr (s.scheduler L) o) (Sched.stored (s.scheduler L) sched o)
    pure (s.enter L sched)
  | .create t kstack img =>
    -- without memory for the task no space is made
    if t = 0 ∨ kstack = 0 then do pure { s with sched := ← (s.scheduler L).userTaskCreate t kstack 0 } else do
    let k ← s.kern L
    let (cr3, k) ← k.userTaskImage img
    let s ← s.setKern L k
    pure { s with sched := ← (s.scheduler L).userTaskCreate t kstack cr3 }
  | .fork t kstack =>
    if t = 0 ∨ kstack = 0 then do pure { s with sched := ← (s.scheduler L).doFork t kstack 0 } else do
    let k ← s.kern L
    let (cr3, k) ← k.vmmForkUserSpace
    let s := s.setMem k
    pure { s with sched := ← (s.scheduler L).doFork t kstack cr3 }
  | .execve env upath found => do
    let x ← s.sched.get s.sched.current
    let k ← s.kern L
    let (_, e) ← Exec.doExecve env L.trampoline upath ⟨k, s.fs, { found with cr3 := x.cr3 }⟩
    let s ← s.setKern L e.kern
    pure { s with fs := e.fs, sched := s.sched.put s.sched.current { x with cr3 := e.task.cr3 } }
  | .write va b => do
    let k ← s.kern L
    let k ← k.write true va.1 b
    pure (s.setMem k)

/-- a user task is current -/
def User (s : Sched) : Prop := ∃ x, s.tasks s.current = some x ∧ x.isUser = true

/-- ... and in its own code -/
def InUser (s : Sched) : Prop := ∃ x, s.tasks s.current = some x ∧ x.isUser = true ∧ x.pc = .run

/-- the steps possible in a state: `user_task_create` is called by the bootstrap task, the system calls and the stores
come from a user task -/
def Able (L : Layout) (boot : ℕ) (s : Sys) : Op → Prop
  | .sched o => o.quiet ∧ Sched.Possible boot (s.scheduler L) o ∧ (o.waits = true → User s.sched)
  | .create t _ _ => s.sched.current = boot ∧ Sched.InCode s.sched ∧ Sched.Fresh s.sched t
  | .fork t _ => InUser s.sched ∧ Sched.Fresh s.sched t
  | .execve _ _ _ => InUser s.sched
  | .write _ _ => InUser s.sched

/-- the pages that a task maps -/
def pages (s : Sys) (x : Task) : List ℕ := Kern.frames s.mem (frame x.cr3)

/-- the step is not given a status pointer into the kernel half, loads nothing there, forks no page from 4 GiB on, and
starts no program while another user task maps a page of the caller whose count is 1 -/
def Careful (L : Layout) (s : Sys) : Op → Prop
  | .sched o => Sched.statusPtr (s.scheduler L) o < userEnd
  | .create _ _ img => img.len.toNat + 0x400000 ≤ 2 ^ 47
  | .fork _ _ => ∀ x, s.sched.tasks s.sched.current = some x → ∀ f ∈ s.pages x, f < 2 ^ 20
  | .execve env upath found => ∀ x, s.sched.tasks s.sched.current = some x →
    ∀ img e, Exec.Found env upath ⟨s.core L, s.fs, { found with cr3 := x.cr3 }⟩ img e → UserImage img ∧
      ∀ t y, t ≠ s.sched.current → s.sched.tasks t = some y → y.isUser = true →
        ∀ f ∈ s.pages x, f ∈ s.pages y → s.pmm.counts f ≠ 1
  | .write _ _ => True

/-- a user task that runs its own code runs on its own space, by the register and by `pml4` -/
def OnOwn (L : Layout) (s : Sys) : Prop := ∀ x, s.sched.tasks s.sched.current = some x → x.isUser = true → x.pc = .run →
  s.sched.space = x.cr3 ∧ s.pml4 L = x.cr3

/-- the pages of the two variables and of the kernel's own PML4 -/
def OwnPage (L : Layout) (s : Sys) (f : ℕ) : Prop :=
  f = L.pml4.page ∨ f = L.kernelCr3.page ∨ f = pageIdx (L.kernelCr3.get s.mem)

/-- the state in which `kmain` starts to create tasks: the kernel's own space is active, and its pages are in use -/
structure Booted (L : Layout) (boot : ℕ) (s : Sys) : Prop where
  sched : Sched.Boots boot s.sched
  apart : L.kernelCr3.page = L.pml4.page → L.kernelCr3.slot ≠ L.pml4.slot
  pmm : s.pmm.Ok
  phys : s.pmm.bitmapLen ≤ 2 ^ 40
  held : s.fs.Held (s.core L)
  own : ∀ f, OwnPage L s f → f ∉ s.pmm.freeSet ∧ f ∉ s.fs.bufPages

/-! ## The invariant -/

/-- the page of a task's PML4 -/
def root (s : Sched) (t : ℕ) : ℕ := ((s.tasks t).map fun x => frame x.cr3).getD 0

theorem root_some {s : Sched} {t : ℕ} {x : Task} (h : s.tasks t = some x) : root s t = frame x.cr3 := by
  rw [root, h]
  rfl

/-- the user tasks `us` have spaces that are in order, and the kernel's own pages are not among those they are made
from -/
structure Housed (L : Layout) (s : Sys) (us : List ℕ) : Prop where
  users : ∀ t, t ∈ us ↔ ∃ x, s.sched.tasks t = some x ∧ x.isUser = true
  live : Live s.fs (s.core L) (us.map (root s.sched))
  own : ∀ f, OwnPage L s f → ¬ Pool s.fs (s.core L) (us.map (root s.sched)) f

structure Inv (L : Layout) (boot : ℕ) (s : Sys) : Prop where
  steady : Sched.Steady boot s.sched
  bootTask : ∀ x, s.sched.tasks boot = some x → x.isUser = false
  vars : L.kernelCr3.page = L.pml4.page → L.kernelCr3.slot ≠ L.pml4.slot
  addrs : ∀ t x, s.sched.tasks t = some x → x.isUser = true → pageAddr (frame x.cr3) = x.cr3
  housed : ∃ us, Housed L s us
  active : ∀ x, s.sched.tasks s.sched.current = some x → x.isUser = true → s.sched.space = x.cr3 ∧ s.pml4 L = x.cr3

variable {L : Layout} {boot : ℕ} {s s' : Sys} {us ws : List ℕ}

theorem Inv.onOwn (h : Inv L boot s) : OnOwn L s := fun x hx hu _ => h.active x hx hu

theorem kern_ok {k : Kern} (h : s.kern L = .ok k) : k = s.core L ∧ pageAddr (pageIdx (s.pml4 L)) = s.pml4 L := by
  unfold kern at h
  split_ifs at h with ha
  exact ⟨(Except.ok.inj h).symm, ha⟩

section Housed

variable {fs' : Uixfs} {k' : Kern} {roots' : List ℕ} {ρ : ℕ → ℕ} {v : U64}

/-- a step that uses no page from outside the pool leaves the variables alone -/
theorem Housed.vars (H : Housed L s us) (h : Lives s.fs (s.core L) (us.map (root s.sched)) fs' k' roots') :
    L.pml4.get k'.mem = L.pml4.get s.mem ∧ L.kernelCr3.get k'.mem = L.kernelCr3.get s.mem := by
  refine ⟨?_, ?_⟩
  · exact congrFun (h.mem _ (H.own _ (.inl rfl))) _
  · exact congrFun (h.mem _ (H.own _ (.inr (.inl rfl)))) _

/-- **The spaces after a step**: the user tasks that there are now have theirs among those of `ws`. -/
theorem Housed.next (H : Housed L s us) (hvars : L.kernelCr3.page = L.pml4.page → L.kernelCr3.slot ≠ L.pml4.slot)
    (h : Lives s.fs (s.core L) (us.map (root s.sched)) s'.fs k' (ws.map ρ)) (hmem : s'.mem = L.pml4.set v k'.mem)
    (hpmm : s'.pmm = k'.pmm)
    (husers : ∀ t x, s'.sched.tasks t = some x → x.isUser = true → t ∈ ws ∧ frame x.cr3 = ρ t) :
    ∃ us', Housed L s' us' := by
  let p : ℕ → Bool := fun t => (s'.sched.tasks t).any Task.isUser
  have hp : ∀ t, p t = true ↔ ∃ x, s'.sched.tasks t = some x ∧ x.isUser = true := fun t => Option.any_eq_true _ _
  have hroots : (ws.filter p).map (root s'.sched) = (ws.filter p).map ρ := by
    refine map_congr_left fun t ht => ?_
    obtain ⟨x, hx, hu⟩ := (hp t).1 (mem_filter.1 ht).2
    rw [root_some hx]
    exact (husers t x hx hu).2
  have hlives := h.trans (h.live.sublist ((filter_sublist (p := p)).map ρ))
  -- the page of `pml4` is outside, so the store to it does not matter
  have hout : L.pml4.page ∉ paging.forest k'.mem 3 ((ws.filter p).map ρ) lowerHalf := fun hc =>
    H.own _ (.inl rfl) (hlives.pool _ (.inr (.inr (.inl hc))))
  obtain ⟨hlive, hpool⟩ := hlives.live.setPage hout (update (k'.mem L.pml4.page) L.pml4.slot v)
  have hpool' : ∀ f, Pool s'.fs (s'.core L) ((ws.filter p).map (root s'.sched)) f →
      Pool s.fs (s.core L) (us.map (root s.sched)) f := fun f hf => by
    refine hlives.pool f (hpool f ?_)
    rw [hroots] at hf
    unfold Pool at hf ⊢
    change f ∈ s'.pmm.freeSet ∨ _ ∨ f ∈ paging.forest s'.mem 3 _ _ ∨ ∃ r ∈ _, f ∈ frames s'.mem r at hf
    rwa [hmem, hpmm] at hf
  have hkernel : L.kernelCr3.get s'.mem = L.kernelCr3.get s.mem := by
    rw [hmem, Var.get_set_of_ne hvars]
    exact (H.vars h).2
  refine ⟨ws.filter p, fun t => ?_, ?_, fun f hf hc => H.own f ?_ (hpool' f hc)⟩
  · rw [mem_filter, hp]
    refine and_iff_right_of_imp ?_
    rintro ⟨x, hx, hu⟩
    exact (husers t x hx hu).1
  · rw [hroots]
    exact hlive.regs hmem hpmm
  · rw [OwnPage, hkernel] at hf
    exact hf

end Housed

section Roots

variable {x : Task} {t : ℕ}

theorem Housed.mem_roots (H : Housed L s us) (hx : s.sched.tasks t = some x) (hu : x.isUser = true) :
    frame x.cr3 ∈ us.map (root s.sched) :=
  mem_map.2 ⟨t, (H.users t).2 ⟨x, hx, hu⟩, root_some hx⟩

/-- an address of a PML4 and its page -/
theorem Housed.pageIdx (H : Housed L s us) (hx : s.sched.tasks t = some x) (hu : x.isUser = true)
    (ha : pageAddr (frame x.cr3) = x.cr3) : pageIdx x.cr3 = frame x.cr3 := by
  have hlt := H.live.spaces.trees.inside _ (root_mem_forest (H.mem_roots hx hu))
  conv_lhs => rw [← ha]
  exact Pmm.pageIdx_pageAddr (hlt.trans_le (H.live.spaces.trees.phys.trans (by decide)))

/-- a user task has a space of its own, other than page 0 and the kernel's -/
theorem Housed.ownSpace (H : Housed L s us) (hx : s.sched.tasks t = some x) (hu : x.isUser = true)
    (ha : pageAddr (frame x.cr3) = x.cr3) : x.cr3 ≠ 0 ∧ x.cr3 ≠ L.kernelCr3.get s.mem := by
  have hroot : frame x.cr3 ∈ paging.forest s.mem 3 (us.map (root s.sched)) lowerHalf :=
    root_mem_forest (H.mem_roots hx hu)
  refine ⟨fun hc => (H.live.tables _ hroot).1 (by rw [hc]; rfl), fun hc => ?_⟩
  refine H.own (frame x.cr3) (.inr (.inr ?_)) (.inr (.inr (.inl hroot)))
  rw [← hc, H.pageIdx hx hu ha]

/-- the space of the current user task is active -/
theorem Inv.current (h : Inv L boot s) (H : Housed L s us) (hx : s.sched.tasks s.sched.current = some x)
    (hu : x.isUser = true) : (s.core L).pml4 = frame x.cr3 ∧ frame (s.core L).cr3 = (s.core L).pml4 := by
  obtain ⟨h1, h2⟩ := h.active x hx hu
  have hidx : (s.core L).pml4 = frame x.cr3 := by
    change pageIdx (s.pml4 L) = _
    rw [h2, H.pageIdx hx hu (h.addrs _ x hx hu)]
  refine ⟨hidx, ?_⟩
  rw [hidx]
  exact congrArg frame h1

end Roots

/-- the bootstrap task stays a kernel task -/
theorem bootTask_keep {s s' : Sched} (h : ∀ x, s.tasks boot = some x → x.isUser = false)
    (hu : ∀ x', s'.tasks boot = some x' → x'.isUser = true → ∃ x, s.tasks boot = some x ∧ x.isUser = true) :
    ∀ x, s'.tasks boot = some x → x.isUser = false := by
  intro x' hx'
  cases hb : x'.isUser with
  | false => rfl
  | true =>
    obtain ⟨x, hx, hxu⟩ := hu x' hx' hb
    rw [h x hx] at hxu
    cases hxu

theorem switchedTo_own {s s' : Sched} {y : Task} (hc : s'.current ≠ s.current) (hy : s'.tasks s'.current = some y)
    (hown : y.cr3 ≠ 0 ∧ y.cr3 ≠ s.kernelCr3) : switchedTo s s' = some y.cr3 := by
  simp only [switchedTo, if_neg hc, hy, if_pos hown]

theorem enter_mem (s : Sys) (sched : Sched) : ∃ v, (s.enter L sched).mem = L.pml4.set v s.mem := by
  unfold enter
  cases switchedTo (s.scheduler L) sched with
  | none => exact ⟨_, Var.set_get.symm⟩
  | some cr3 => exact ⟨_, rfl⟩

theorem steady_scheduler (h : Sched.Steady boot s.sched) : Sched.Steady boot (s.scheduler L) := by
  obtain ⟨q, bl, hp, hr⟩ := h
  exact ⟨q, bl, hp.congr hp.holds (fun _ => rfl) rfl rfl, hr⟩

/-- the scheduler acts, and the memory manager does not -/
theorem Inv.scheduled (h : Inv L boot s) {sched : Sched} (hst : Sched.Steady boot sched)
    (hsp : Sched.Spaced (s.scheduler L) sched) : Inv L boot (s.enter L sched) := by
  obtain ⟨us, H⟩ := h.housed
  obtain ⟨v, hmem⟩ := @enter_mem L s sched
  have haddrs : ∀ t x', sched.tasks t = some x' → x'.isUser = true → pageAddr (frame x'.cr3) = x'.cr3 := by
    intro t x' hx' hu'
    obtain ⟨x, hx, hxu, he⟩ := hsp.users t x' hx' hu'
    rw [he]
    exact h.addrs t x hx hxu
  have hhoused : ∃ us, Housed L (s.enter L sched) us := by
    refine H.next h.vars (.refl H.live) hmem rfl fun t x' hx' hu' => ?_
    obtain ⟨x, hx, hxu, he⟩ := hsp.users t x' hx' hu'
    exact ⟨(H.users t).2 ⟨x, hx, hxu⟩, by rw [he, root_some (s := s.sched) hx]⟩
  refine ⟨hst, bootTask_keep h.bootTask fun x' hx' hb => ?_, h.vars, haddrs, hhoused, fun x' hx' hb => ?_⟩
  · obtain ⟨x, hx, hxu, _⟩ := hsp.users boot x' hx' hb
    exact ⟨x, hx, hxu⟩
  change sched.tasks sched.current = some x' at hx'
  change sched.space = x'.cr3 ∧ (s.enter L sched).pml4 L = x'.cr3
  by_cases hc : sched.current = s.sched.current
  · -- the same task goes on, on the space that was active
    obtain ⟨x, hx, hxu, he⟩ := hsp.users _ x' hx' hb
    rw [hc] at hx
    obtain ⟨h1, h2⟩ := h.active x hx hxu
    have hno : switchedTo (s.scheduler L) sched = none := if_pos hc
    rw [he, pml4, enter, hno]
    exact ⟨(hsp.stays hc).trans h1, h2⟩
  · obtain ⟨y, hy, hspace⟩ := hsp.enters hc
    obtain rfl : y = x' := Option.some.inj (hy.symm.trans hx')
    obtain ⟨x, hx, hxu, he⟩ := hsp.users _ y hy hb
    have hown : y.cr3 ≠ 0 ∧ y.cr3 ≠ (s.scheduler L).kernelCr3 := by
      rw [he]
      exact H.ownSpace hx hxu (h.addrs _ x hx hxu)
    have hto : switchedTo (s.scheduler L) sched = some y.cr3 := switchedTo_own hc hy hown
    rw [pml4, enter, hto, Var.get_set]
    exact ⟨hspace.trans (if_pos hown), BitVec.add_sub_cancel _ _⟩

/-- the memory manager acts, and switches no space -/
theorem Inv.setMem (h : Inv L boot s) (H : Housed L s us) {k' : Kern}
    (hl : Lives s.fs (s.core L) (us.map (root s.sched)) s.fs k' (us.map (root s.sched))) :
    Inv L boot (s.setMem k') := by
  refine ⟨h.steady, h.bootTask, h.vars, h.addrs, ?_, fun x hx hu => ?_⟩
  · refine H.next h.vars hl Var.set_get.symm rfl fun t x hx hu => ?_
    exact ⟨(H.users t).2 ⟨x, hx, hu⟩, (root_some hx).symm⟩
  · rw [pml4, Sys.setMem, (H.vars hl).1]
    exact h.active x hx hu

/-- a word stored by the kernel for a user task, in the user half -/
theorem Inv.stored (h : Inv L boot s) (hu : User s.sched) {status v : U64} (hst : status < userEnd)
    (hs : storeStatus L s status v = .ok s') : Inv L boot s' ∧ s'.scheduler L = s.scheduler L := by
  obtain ⟨us, H⟩ := h.housed
  obtain ⟨x, hx, hxu⟩ := hu
  rw [storeStatus, if_pos hst] at hs
  obtain ⟨k, hk, hs⟩ := bind_ok.1 hs
  obtain ⟨k', hw, hs⟩ := bind_ok.1 hs
  obtain rfl := pure_ok.1 hs
  obtain ⟨rfl, -⟩ := kern_ok hk
  obtain ⟨hidx, hcr3⟩ := h.current H hx hxu
  have hl := ((H.live.writtenBytes (hidx ▸ H.mem_roots hx hxu) hcr3 _ (BitVec.le_of_lt hst)).of_eq hw).1
  refine ⟨h.setMem H hl, ?_⟩
  rw [scheduler, Sys.setMem, (H.vars hl).2, scheduler]

theorem Inv.sched (h : Inv L boot s) {o : Sched.Op} (ha : Able L boot s (.sched o)) (hc : Careful L s (.sched o))
    (hs : step L s (.sched o) = .ok s') : Inv L boot s' := by
  obtain ⟨sched, h1, hs⟩ := bind_ok.1 hs
  obtain ⟨s1, h2, hs⟩ := bind_ok.1 hs
  obtain rfl := pure_ok.1 hs
  have hsteady := @steady_scheduler L boot s h.steady
  obtain ⟨q, bl, hp, hr⟩ := hsteady
  have hst := Sched.step_steady ⟨q, bl, hp, hr⟩ ha.2.1 h1
  have hsp := Sched.step_spaced hp hr ha.2.1 ha.1 h1
  cases hv : Sched.stored (s.scheduler L) sched o with
  | none =>
    rw [hv] at h2
    obtain rfl := pure_ok.1 h2
    exact h.scheduled hst hsp
  | some v =>
    have hwaits : o.waits = true := by
      by_contra hno
      rw [Sched.stored, if_pos (.inl (Bool.eq_false_iff.2 hno))] at hv
      cases hv
    rw [hv] at h2
    obtain ⟨h3, hsame⟩ := h.stored (ha.2.2 hwaits) hc h2
    exact h3.scheduled hst (hsame ▸ hsp)

theorem Inv.write (h : Inv L boot s) {va : UserAddr} {b : BitVec 8} (ha : Able L boot s (.write va b))
    (hs : step L s (.write va b) = .ok s') : Inv L boot s' := by
  obtain ⟨us, H⟩ := h.housed
  obtain ⟨x, hx, hxu, -⟩ := ha
  obtain ⟨k, hk, hs⟩ := bind_ok.1 hs
  obtain ⟨k', hw, hs⟩ := bind_ok.1 hs
  obtain rfl := pure_ok.1 hs
  obtain ⟨rfl, -⟩ := kern_ok hk
  obtain ⟨hidx, hcr3⟩ := h.current H hx hxu
  exact h.setMem H ((H.live.written (hidx ▸ H.mem_roots hx hxu) hcr3 va b).of_eq hw).1

/-! ## New spaces -/

/-- memory that is not in use holds no task -/
theorem fresh_ne {s : Sched} {t u : ℕ} {x : Task} (h0 : t ≠ 0) (hf : Sched.Fresh s t) (hu : s.tasks u = some x) :
    u ≠ t := by
  rintro rfl
  rw [(hf.resolve_left h0).1] at hu
  cases hu

theorem steady_bootTask {s : Sched} (h : Sched.Steady boot s) : ∃ x, s.tasks boot = some x := by
  obtain ⟨q, bl, hp, _⟩ := h
  rcases hp.boot with hb | ⟨_, hb⟩
  · obtain ⟨x, hx, _⟩ := Sched.exists_of_stateOf ((hp.ready boot).1 hb)
    exact ⟨x, hx⟩
  · obtain ⟨x, hx, _⟩ := Sched.exists_of_stateOf hb
    exact ⟨x, hx⟩

/-- a call that creates no task, for want of memory -/
theorem Inv.refused (h : Inv L boot s) {sched : Sched} (hst : Sched.Steady boot sched)
    (hc : Sched.Calm (s.scheduler L) sched) : Inv L boot { s with sched := sched } := by
  have := h.scheduled hst hc.spaced
  rwa [enter, show switchedTo (s.scheduler L) sched = none from if_pos hc.current] at this

/-- a call that creates a user task `t`, in the space `d` -/
theorem Inv.added (h : Inv L boot s) (H : Housed L s us) {t d : ℕ} {k' : Kern} {v : U64} (h0 : t ≠ 0)
    (hf : Sched.Fresh s.sched t) (hst : Sched.Steady boot s'.sched)
    (hu : Sched.AddsUser t (pageAddr d) s.sched s'.sched)
    (hd : d < 2 ^ 40) (hl : Lives s.fs (s.core L) (us.map (root s.sched)) s'.fs k' (d :: us.map (root s.sched)))
    (hmem : s'.mem = L.pml4.set v k'.mem) (hpmm : s'.pmm = k'.pmm) (hcur : s'.sched.current = s.sched.current)
    (hact : ∀ x, s.sched.tasks s.sched.current = some x → x.isUser = true →
      s'.sched.space = x.cr3 ∧ s'.pml4 L = x.cr3) : Inv L boot s' := by
  have hold : ∀ {u x x'}, s.sched.tasks u = some x → s'.sched.tasks u = some x' → x'.isUser = true →
      ∃ x, s.sched.tasks u = some x ∧ x.isUser = true ∧ x'.cr3 = x.cr3 := fun hx hx' hb =>
    (hu _ _ hx' hb).resolve_right fun ⟨hut, _⟩ => fresh_ne h0 hf hx hut
  have hfr : frame (pageAddr d) = d := frame_pageAddr hd
  have hnew : t ∉ us := fun ht => by
    obtain ⟨x, hx, -⟩ := (H.users t).1 ht
    exact fresh_ne h0 hf hx rfl
  have hroots : d :: us.map (root s.sched) = (t :: us).map (update (root s.sched) t d) := by
    rw [map_cons, update_self]
    refine congrArg _ (map_congr_left fun u hus => (update_of_ne ?_ _ _).symm)
    rintro rfl
    exact hnew hus
  obtain ⟨xb, hxb⟩ := steady_bootTask h.steady
  obtain ⟨xc, hxc⟩ := h.steady.current
  refine ⟨hst, bootTask_keep h.bootTask fun x' hx' hb => ?_, h.vars, fun u x' hx' hb => ?_,
    H.next h.vars (hroots ▸ hl) hmem hpmm fun u x' hx' hb => ?_, fun x' hx' hb => ?_⟩
  · obtain ⟨x, hx, hxu, _⟩ := hold hxb hx' hb
    exact ⟨x, hx, hxu⟩
  · rcases hu u x' hx' hb with ⟨x, hx, hxu, he⟩ | ⟨-, he⟩
    · rw [he]
      exact h.addrs u x hx hxu
    · rw [he, hfr]
  · rcases hu u x' hx' hb with ⟨x, hx, hxu, he⟩ | ⟨rfl, he⟩
    · refine ⟨mem_cons_of_mem _ ((H.users u).2 ⟨x, hx, hxu⟩), ?_⟩
      rw [he, update_of_ne (fresh_ne h0 hf hx), root_some hx]
    · rw [he, hfr, update_self]
      exact ⟨mem_cons_self, rfl⟩
  · rw [hcur] at hx'
    obtain ⟨x, hx, hxu, he⟩ := hold hxc hx' hb
    rw [he]
    exact hact x hx hxu

theorem setKern_ok {k : Kern} (h : s.setKern L k = .ok s') :
    s' = { s with
      mem := L.pml4.set (pageAddr k.pml4 + L.hhdm) k.mem, pmm := k.pmm, sched := { s.sched with space := k.cr3 } } := by
  unfold setKern at h
  split_ifs at h
  exact (Except.ok.inj h).symm

theorem Inv.create (h : Inv L boot s) {t kstack : ℕ} {img : Image} (ha : Able L boot s (.create t kstack img))
    (hc : Careful L s (.create t kstack img)) (hs : step L s (.create t kstack img) = .ok s') : Inv L boot s' := by
  obtain ⟨us, H⟩ := h.housed
  obtain ⟨hboot, hcode, hf⟩ := ha
  dsimp only [step] at hs
  split_ifs at hs with h0
  · obtain ⟨sched, h1, hs⟩ := bind_ok.1 hs
    obtain rfl := pure_ok.1 hs
    exact h.refused (Sched.step_steady (o := .userTaskCreate t kstack 0) (steady_scheduler h.steady) ⟨hcode, hf⟩ h1)
      (Sched.userTaskCreate_refused h0 h1)
  · obtain ⟨k, hk, hs⟩ := bind_ok.1 hs
    obtain ⟨⟨cr3, k'⟩, himg, hs⟩ := bind_ok.1 hs
    obtain ⟨s1, hset, hs⟩ := bind_ok.1 hs
    obtain ⟨sched, h1, hs⟩ := bind_ok.1 hs
    obtain rfl := pure_ok.1 hs
    obtain rfl := setKern_ok hset
    obtain ⟨rfl, -⟩ := kern_ok hk
    obtain ⟨d, hcr3, hd, hl, -⟩ := (userTaskImage_spec hc H.live).of_eq himg
    dsimp only at hcr3 hl
    subst hcr3
    obtain ⟨hu, -, hcur, _⟩ := Sched.userTaskCreate_users h0 h1
    have hst : Sched.Steady boot sched := by
      refine Sched.step_steady (o := .userTaskCreate t kstack (pageAddr d)) ?_ ?_ h1
      · obtain ⟨q, bl, hp, hr⟩ := h.steady
        exact ⟨q, bl, hp.congr hp.holds (fun _ => rfl) rfl rfl, hr⟩
      · exact ⟨hcode, hf⟩
    refine h.added H (not_or.1 h0).1 hf hst hu hd hl rfl rfl hcur fun x hx hb => ?_
    -- the bootstrap task is current, which is no user task
    rw [h.bootTask x (hboot ▸ hx)] at hb
    cases hb

theorem Inv.fork (h : Inv L boot s) {t kstack : ℕ} (ha : Able L boot s (.fork t kstack))
    (hc : Careful L s (.fork t kstack)) (hs : step L s (.fork t kstack) = .ok s') : Inv L boot s' := by
  obtain ⟨us, H⟩ := h.housed
  obtain ⟨⟨xc, hxc, hxu, hrun⟩, hf⟩ := ha
  dsimp only [step] at hs
  split_ifs at hs with h0
  · obtain ⟨sched, h1, hs⟩ := bind_ok.1 hs
    obtain rfl := pure_ok.1 hs
    exact h.refused (Sched.step_steady (o := .fork t kstack 0) (steady_scheduler h.steady) ⟨⟨xc, hxc, hrun⟩, hf⟩ h1)
      (Sched.doFork_refused h0 h1)
  · obtain ⟨k, hk, hs⟩ := bind_ok.1 hs
    obtain ⟨⟨cr3, k'⟩, hspace, hs⟩ := bind_ok.1 hs
    obtain ⟨sched, h1, hs⟩ := bind_ok.1 hs
    obtain rfl := pure_ok.1 hs
    obtain ⟨rfl, -⟩ := kern_ok hk
    obtain ⟨hidx, -⟩ := h.current H hxc hxu
    have hr : (s.core L).pml4 ∈ us.map (root s.sched) := hidx ▸ H.mem_roots hxc hxu
    obtain ⟨d, S, hcr3, hd, F⟩ := (vmmFork_spec (H.live.spaces.spacePre hr)).of_eq hspace
    dsimp only at hcr3 F
    subst hcr3
    have hl := H.live.forked hr F (by rw [hidx]; exact hc xc hxc)
    obtain ⟨hu, -, hcur, hsp, _⟩ := Sched.doFork_users h0 h1
    have hst := Sched.step_steady (o := .fork t kstack (pageAddr d))
      (steady_scheduler (s := s.setMem k') h.steady) ⟨⟨xc, hxc, hrun⟩, hf⟩ h1
    have hd40 := Pmm.lt_of_free hd H.live.spaces.trees.phys
    refine h.added H (not_or.1 h0).1 hf hst hu hd40 hl Var.set_get.symm rfl hcur
      fun x hx hb => ?_
    obtain ⟨h2, h3⟩ := h.active x hx hb
    refine ⟨hsp.trans h2, ?_⟩
    rw [pml4, Sys.setMem, (H.vars hl).1]
    exact h3

theorem Inv.execve (h : Inv L boot s) {env : ExecEnv} {upath : U64} {found : ExecTask}
    (ha : Able L boot s (.execve env upath found)) (hc : Careful L s (.execve env upath found))
    (hs : step L s (.execve env upath found) = .ok s') : Inv L boot s' := by
  obtain ⟨us, H⟩ := h.housed
  obtain ⟨xc, hxc, hxu, _⟩ := ha
  obtain ⟨x, hx, hs⟩ := bind_ok.1 hs
  obtain rfl := Option.some.inj ((Sched.get_iff.1 hx).symm.trans hxc)
  obtain ⟨k, hk, hs⟩ := bind_ok.1 hs
  obtain ⟨⟨r, e⟩, he, hs⟩ := bind_ok.1 hs
  obtain ⟨s1, hset, hs⟩ := bind_ok.1 hs
  obtain rfl := pure_ok.1 hs
  obtain rfl := setKern_ok hset
  obtain ⟨rfl, -⟩ := kern_ok hk
  have haddr := h.addrs _ x hxc hxu
  have hidx := H.pageIdx hxc hxu haddr
  obtain ⟨h1, h2⟩ := h.active x hxc hxu
  -- the caller's space and the others
  have hcur : s.sched.current ∈ us := (H.users _).2 ⟨x, hxc, hxu⟩
  have hperm : (us.map (root s.sched)).Perm (Pmm.pageIdx x.cr3 :: (us.erase s.sched.current).map (root s.sched)) := by
    have := (perm_cons_erase hcur).map (root s.sched)
    rwa [map_cons, root_some hxc, ← hidx] at this
  have hlive := H.live.perm hperm
  have hnodup : us.Nodup := Nodup.of_map _ (roots_nodup H.live.spaces.trees.nodup)
  have hother : ∀ u ∈ us.erase s.sched.current, u ≠ s.sched.current ∧ ∃ y, s.sched.tasks u = some y ∧ y.isUser = true :=
    fun u hu => ⟨((hnodup.mem_erase_iff).1 hu).1, (H.users u).1 (mem_of_mem_erase hu)⟩
  have hshared : ∀ img e, Exec.Found env upath ⟨s.core L, s.fs, { found with cr3 := x.cr3 }⟩ img e →
      ∀ r ∈ (us.erase s.sched.current).map (root s.sched), ∀ f ∈ frames s.mem (Pmm.pageIdx x.cr3), f ∈ frames s.mem r →
        2 ≤ s.pmm.counts f := by
    intro img e hfound r hr f hf hf'
    obtain ⟨u, hu, rfl⟩ := mem_map.1 hr
    obtain ⟨hne, y, hy, hyu⟩ := hother u hu
    have hroots := roots_nodup hlive.live.spaces.trees.nodup
    have hcount := hlive.live.spaces.counted _ mem_cons_self _ (mem_cons_of_mem _ hr)
      (fun hc => (nodup_cons.1 hroots).1 (hc ▸ hr)) f hf hf'
    rw [root_some hy] at hf'
    rw [hidx] at hf
    have hnot := (hc x hxc img e hfound).2 u y hne hy hyu f hf hf'
    change 1 ≤ s.pmm.counts f at hcount
    omega
  obtain ⟨d, M⟩ := (Exec.doExecve_live (s := ⟨s.core L, s.fs, { found with cr3 := x.cr3 }⟩) hlive.live hshared hidx.symm
    fun img e hfound => (hc x hxc img e hfound).1).of_eq he
  dsimp only at M
  obtain ⟨hcr3, hpml4⟩ := M.active h1 (congrArg Pmm.pageIdx h2)
  have hd : pageAddr d = e.task.cr3 := by
    rcases M.cr3 with hsame | hnew
    · rw [hsame, ← M.aligned, hsame]
      exact haddr
    · exact hnew.symm
  have hroots : d :: (us.erase s.sched.current).map (root s.sched) =
      (s.sched.current :: us.erase s.sched.current).map (update (root s.sched) s.sched.current d) := by
    rw [map_cons, update_self]
    exact congrArg _ (map_congr_left fun u hu => (update_of_ne (hother u hu).1 _ _).symm)
  -- only the caller's structure is written
  let T := update s.sched.tasks s.sched.current (some { x with cr3 := e.task.cr3 })
  have hself : T s.sched.current = some { x with cr3 := e.task.cr3 } := update_self _ _ _
  have hrest : ∀ u, u ≠ s.sched.current → T u = s.sched.tasks u := fun u hu => update_of_ne hu _ _
  refine ⟨h.steady.setSpace hxc rfl rfl rfl rfl, bootTask_keep h.bootTask fun x' hx' hb => ?_, h.vars,
    fun u x' hx' hb => ?_,
    H.next h.vars (hroots ▸ hlive.trans M.lives) rfl rfl fun u x' hx' hb => ?_, fun x' hx' hb => ?_⟩
  · by_cases hu : boot = s.sched.current
    · exact ⟨x, hu ▸ hxc, hxu⟩
    · exact ⟨x', (hrest _ hu).symm.trans hx', hb⟩
  · by_cases hu : u = s.sched.current
    · subst hu
      obtain rfl := Option.some.inj (hself.symm.trans hx')
      rw [← hd, frame_pageAddr (M.lives.live.spaces.trees.inside d (root_mem_forest mem_cons_self) |>.trans_le
        M.lives.live.spaces.trees.phys)]
    · exact h.addrs u x' ((hrest _ hu).symm.trans hx') hb
  · by_cases hu : u = s.sched.current
    · subst hu
      obtain rfl := Option.some.inj (hself.symm.trans hx')
      rw [update_self]
      exact ⟨mem_cons_self, M.aligned⟩
    · have hx'' := (hrest _ hu).symm.trans hx'
      rw [update_of_ne hu, root_some hx'']
      exact ⟨mem_cons_of_mem _ ((mem_erase_of_ne hu).2 ((H.users u).2 ⟨x', hx'', hb⟩)), rfl⟩
  · obtain rfl := Option.some.inj (hself.symm.trans hx')
    refine ⟨hcr3, ?_⟩
    change L.pml4.get (L.pml4.set (pageAddr e.kern.pml4 + L.hhdm) e.kern.mem) - L.hhdm = e.task.cr3
    rw [Var.get_set, BitVec.add_sub_cancel, hpml4, hd]

/-! ## Runs -/

/-- **One step** keeps the current user task on its own space. -/
theorem Inv.step {o : Op} (h : Inv L boot s) (ha : Able L boot s o) (hc : Careful L s o) (hs : step L s o = .ok s') :
    Inv L boot s' := by
  cases o with
  | sched o => exact h.sched ha hc hs
  | create t kstack img => exact h.create ha hc hs
  | fork t kstack => exact h.fork ha hc hs
  | execve env upath found => exact h.execve ha hc hs
  | write va b => exact h.write ha hs

/-- a step that is possible, careful, and ends -/
def Goes (L : Layout) (boot : ℕ) (s : Sys) (o : Op) (s' : Sys) : Prop :=
  Able L boot s o ∧ Careful L s o ∧ step L s o = .ok s'

theorem Booted.inv (h : Booted L boot s) : Inv L boot s := by
  have hno : ∀ t x, s.sched.tasks t = some x → x.isUser ≠ true := fun t x hx hu => by
    rw [h.sched.noUser hx] at hu
    cases hu
  refine ⟨h.sched.steady, fun x hx => h.sched.noUser hx, h.apart,
    fun t x hx hu => absurd hu (hno t x hx), ⟨[], ?_, ?_, ?_⟩, fun x hx hu => absurd hu (hno _ x hx)⟩
  · refine fun t => iff_of_false not_mem_nil ?_
    rintro ⟨x, hx, hu⟩
    exact hno t x hx hu
  · exact ⟨.nil h.pmm h.phys, h.held, fun _ hr => absurd hr not_mem_nil, fun _ hr => absurd hr not_mem_nil⟩
  · rintro f hf (hc | hc | hc | ⟨r, hr, -⟩)
    · exact (h.own f hf).1 hc
    · exact (h.own f hf).2 hc
    · exact absurd hc not_mem_nil
    · exact absurd hr not_mem_nil

theorem Booted.run {s₀ : Sys} {ops : List Op} (hboot : Booted L boot s₀) (hrun : Steps (Goes L boot) s₀ ops s) :
    Inv L boot s :=
  Steps.inv (fun _ _ _ h hstep => h.step hstep.1 hstep.2.1 hstep.2.2) hboot.inv hrun

/-- **User code runs on its own space.** -/
theorem own_space (L : Layout) (boot : ℕ) (s₀ s : Sys) (ops : List Op) (hboot : Booted L boot s₀)
    (hrun : Steps (Goes L boot) s₀ ops s) : OnOwn L s := (hboot.run hrun).onOwn

/-! ## A status pointer into the kernel -/

section Sample

open Tasks (emptyKern noFiles noProgram newTask)

theorem goes_sched {o : Sched.Op} {sched : Sched} {cr3 : Option PAddr} (ha : Able L boot s (.sched o))
    (hp : Sched.statusPtr (s.scheduler L) o = 0) (hs : Sched.step (s.scheduler L) o = .ok sched)
    (hst : Sched.stored (s.scheduler L) sched o = none) (hto : switchedTo (s.scheduler L) sched = cr3) :
    Goes L boot s (.sched o) ⟨sched, cr3.elim s.mem fun pa => L.pml4.set (pa + L.hhdm) s.mem, s.pmm, s.fs⟩ := by
  refine ⟨ha, ?_, ?_⟩
  · change _ < _
    rw [hp]
    decide
  · simp only [step, hs, ok_bind, hst, deliver, pure_eq_ok, enter, hto]
    cases cr3 <;> rfl

theorem goes_create (t kstack : ℕ) {img : Image} {k' : Kern} {cr3 : PAddr} {s1 : Sys} {sched : Sched}
    (h0 : ¬ (t = 0 ∨ kstack = 0)) (ha : Able L boot s (.create t kstack img)) (hk : s.kern L = .ok (s.core L))
    (himg : (s.core L).userTaskImage img = .ok (cr3, k')) (hset : s.setKern L k' = .ok s1)
    (hl : img.len.toNat + 0x400000 ≤ 2 ^ 47) (hs : (s1.scheduler L).userTaskCreate t kstack cr3 = .ok sched) :
    Goes L boot s (.create t kstack img) { s1 with sched := sched } := by
  refine ⟨ha, hl, ?_⟩
  simp only [step, if_neg h0, hk, himg, hset, hs, ok_bind, pure_eq_ok]

theorem goes_fork (t kstack : ℕ) {k' : Kern} {cr3 : PAddr} {sched : Sched} (h0 : ¬ (t = 0 ∨ kstack = 0))
    (ha : Able L boot s (.fork t kstack)) (hc : Careful L s (.fork t kstack)) (hk : s.kern L = .ok (s.core L))
    (hf : (s.core L).vmmForkUserSpace = .ok (cr3, k'))
    (hs : ((s.setMem k').scheduler L).doFork t kstack cr3 = .ok sched) :
    Goes L boot s (.fork t kstack) { s.setMem k' with sched := sched } := by
  refine ⟨ha, hc, ?_⟩
  simp only [step, if_neg h0, hk, hf, hs, ok_bind, pure_eq_ok]

theorem careful_fork {t kstack : ℕ} {x : Task} (hx : s.sched.tasks s.sched.current = some x)
    (h : ∀ f ∈ frames s.mem (frame x.cr3), f < 2 ^ 20) : Careful L s (.fork t kstack) := by
  intro y hy
  rw [hx, Option.some.injEq] at hy
  exact hy ▸ h

/-- the status goes to `pml4` -/
theorem step_overwrites {o : Sched.Op} {sched : Sched} {v : U64} (hs : Sched.step (s.scheduler L) o = .ok sched)
    (hst : Sched.stored (s.scheduler L) sched o = some v) (hp : Sched.statusPtr (s.scheduler L) o = L.pml4.addr)
    (hL : ¬ L.pml4.addr < userEnd) :
    step L s (.sched o) = .ok ({ s with mem := L.pml4.set v s.mem }.enter L sched) := by
  simp only [step, hs, ok_bind, hst, hp, deliver, storeStatus, if_neg hL, if_pos, pure_eq_ok]

/-- in a run each user task has a space of its own -/
theorem own_of_run {ops : List Op} {s₀ : Sys} {t : ℕ} {x : Task} (hrun : Steps (Goes L boot) s₀ ops s)
    (hboot : Booted L boot s₀) (hx : s.sched.tasks t = some x) (hu : x.isUser = true) :
    x.cr3 ≠ 0 ∧ x.cr3 ≠ (s.scheduler L).kernelCr3 := by
  have h : Inv L boot s := hboot.run hrun
  obtain ⟨us, H⟩ := h.housed
  exact H.ownSpace hx hu (h.addrs _ x hx hu)

/-- the page of the variables does not matter to the first program -/
theorem fresh_aside {t : Tasks} {c : ExecTask} (F : Tasks.Fresh t c) {k : Kern} {f : ℕ} {row : Fin 512 → U64}
    (hf : 1024 ≤ f)
    (hmem : k.mem = update t.kern.mem f row) (hpmm : k.pmm = t.kern.pmm) : Tasks.Fresh ⟨k, t.fs, t.tasks⟩ c := by
  have hroot := F.good.live.spaces.trees
  have hout : f ∉ paging.forest t.kern.mem 3 (t.tasks.map fun c => frame c.cr3) lowerHalf := fun hc => by
    have := hroot.inside f hc
    rw [F.len] at this
    omega
  have hA := Kern.Agree.setPage hout row (Tasks.mem_roots F.mem)
  obtain ⟨e, hw, hzero⟩ := F.page
  refine ⟨⟨F.good.addrs, (F.good.live.setPage hout row).1.regs hmem hpmm⟩,
    F.tasks, by rw [hpmm, F.len], by rw [hpmm, F.refs], by rw [hpmm]; exact F.free, e, ?_, ?_⟩
  · rw [hmem, hA.walk Tasks.stackVa.lower, hw]
  · rw [hmem, update_of_ne ?_, hzero]
    have := F.good.live.spaces.inside _ (Tasks.mem_roots F.mem) _
      (frame_mem_frames (p := (0, e)) Tasks.stackVa.lower hw)
    rw [F.len] at this
    change frame e < 1024 at this
    omega

def sampleLayout : Layout := ⟨0xFFFF800000000000, 0, ⟨0xFFFFFFFF80100000, 2000, 0⟩, ⟨0xFFFFFFFF80100008, 2000, 1⟩⟩

def sampleMem : PhysMem :=
  sampleLayout.kernelCr3.set (pageAddr 1) (sampleLayout.pml4.set (pageAddr 1 + sampleLayout.hhdm) emptyKern.mem)

def sampleSched : Sched :=
  (((Sched.statics (pageAddr 1)).taskInit 0x1000 0x4000).toOption.getD (Sched.statics 0)).schedInit

def sampleSys : Sys := ⟨sampleSched, sampleMem, emptyKern.pmm, noFiles⟩

theorem sampleMem_free : ∀ f ∈ emptyKern.pmm.freeSet, sampleMem f = fun _ => 0 := fun f hf => by
  have hne : f ≠ 2000 := by
    have : f < 1024 := (Pmm.mem_freeSet.1 hf).1
    omega
  exact (update_of_ne hne _ _).trans (update_of_ne hne _ _)

theorem sampleSys_booted : Booted sampleLayout 0x1000 sampleSys where
  sched := ⟨pageAddr 1, 0x4000, _, by decide, rfl, rfl⟩
  apart _ := by decide
  pmm := Tasks.emptyKern_ok
  phys := show emptyKern.pmm.bitmapLen ≤ 2 ^ 40 by decide
  held := Tasks.noFiles_held _
  own f hf := by
    have hfree : emptyKern.pmm.freeSet = Finset.Ico 2 1024 := Pmm.freeSet_fresh _ _ (by decide)
    refine ⟨fun hc => ?_, not_mem_nil⟩
    rw [show sampleSys.pmm.freeSet = _ from hfree, Finset.mem_Ico] at hc
    rcases hf with rfl | rfl | rfl
    · exact absurd hc (by decide)
    · exact absurd hc (by decide)
    · exact absurd hc (by decide)

/-- the first program, and a copy of its space -/
theorem two_spaces : ∃ i k₁, i < 1024 ∧ userTaskImage noProgram (sampleSys.core sampleLayout) = .ok (pageAddr i, k₁) ∧
    k₁.mem 2000 = sampleMem 2000 ∧
    ∀ (s : Sys) (v w : U64), s.mem = sampleLayout.pml4.set v (sampleLayout.pml4.set w k₁.mem) →
      s.pmm = k₁.pmm → s.pml4 sampleLayout = pageAddr i → s.sched.space = pageAddr i →
      s.kern sampleLayout = .ok (s.core sampleLayout) ∧ (∀ f ∈ frames s.mem (frame (pageAddr i)), f < 2 ^ 20) ∧
      ∃ d k₂, (s.core sampleLayout).vmmForkUserSpace = .ok (d, k₂) := by
  have hphys : emptyKern.pmm.bitmapLen ≤ 2 ^ 40 := by decide
  have hfree : emptyKern.pmm.freeSet = Finset.Ico 2 1024 := Pmm.freeSet_fresh _ _ (by decide)
  obtain ⟨c, k₁, himg, F⟩ := Tasks.created sampleMem_free
  have hlive : Live noFiles { emptyKern with mem := sampleMem } [] :=
    (Tasks.Good.nil (k := { emptyKern with mem := sampleMem }) Tasks.emptyKern_ok hphys (Tasks.noFiles_held _)).live
  obtain ⟨i, rfl, -, hl, hi, -⟩ := (userTaskImage_spec (by decide) hlive).of_eq himg
  have hi : 2 ≤ i ∧ i < 1024 := Finset.mem_Ico.1 (hfree ▸ hi)
  have hidx : pageIdx (pageAddr i) = i := Pmm.pageIdx_pageAddr (by omega)
  refine ⟨i, k₁, hi.2, himg, hl.mem 2000 ?_, fun s v w hmem hpmm hpml4 hspace => ?_⟩
  · rintro (hc | hc | hc | ⟨r, hr, -⟩)
    · rw [show ({ emptyKern with mem := sampleMem } : Kern).pmm.freeSet = _ from hfree, Finset.mem_Ico] at hc
      omega
    · exact absurd hc not_mem_nil
    · exact absurd hc not_mem_nil
    · exact absurd hr not_mem_nil
  · have F' := fresh_aside (k := s.core sampleLayout) (f := 2000) F (Nat.le_of_ble_eq_true rfl)
      (hmem.trans (update_idem _ _ _)) hpmm
    have hsw : (s.core sampleLayout).vmmSwitch (pageAddr i) = s.core sampleLayout := by
      rw [vmmSwitch, core, hpml4, hspace]
    refine ⟨if_pos ?_, F'.low, ?_⟩
    · rw [hpml4, hidx]
    · obtain ⟨t, _, hfork, _⟩ := F'.forked
      obtain ⟨⟨d, k₂⟩, hrun, -⟩ := bind_ok.1 hfork
      exact ⟨d, k₂, (congrArg vmmForkUserSpace hsw).symm.trans hrun⟩

/-- the first program forks, its child exits with status 7, and `wait4` stores the status to `pml4` -/
theorem parent_waits : ∃ ops s s' x, Steps (Goes sampleLayout 0x1000) sampleSys ops s ∧ InUser s.sched ∧
    Able sampleLayout 0x1000 s (.sched (.wait4 (-1) sampleLayout.pml4.addr)) ∧
    step sampleLayout s (.sched (.wait4 (-1) sampleLayout.pml4.addr)) = .ok s' ∧
    s'.sched.tasks s'.sched.current = some x ∧ x.isUser = true ∧ x.pc = .run ∧ s'.pml4 sampleLayout ≠ x.cr3 := by
  obtain ⟨i, k₁, hi, himg, hvars, hfork⟩ := two_spaces
  have hget : sampleLayout.pml4.get k₁.mem = sampleLayout.pml4.get sampleMem ∧
      sampleLayout.kernelCr3.get k₁.mem = sampleLayout.kernelCr3.get sampleMem := ⟨congrFun hvars 0, congrFun hvars 1⟩
  have r0 : Steps (Goes sampleLayout 0x1000) sampleSys [] sampleSys := .nil _
  have r1 := r0.snoc
    (goes_create 0x2000 0x8000 (by decide) ⟨rfl, ⟨_, rfl, rfl⟩, Or.inr ⟨rfl, by decide⟩⟩ (if_pos (by decide))
    himg (if_pos hget) (by decide) rfl)
  have h1 : pageAddr i ≠ 0 ∧ pageAddr i ≠ _ := own_of_run (t := 0x2000) r1 sampleSys_booted rfl rfl
  have r2 := r1.snoc (goes_sched (o := .start) ⟨trivial, rfl, fun h => by cases h⟩ rfl
    ((Sched.schedule_to (n := 0x2000) rfl rfl rfl (by decide) rfl).trans ((Sched.switchIn_eq _ _).trans rfl)) rfl
    (switchedTo_own (by decide : 0x2000 ≠ 0x1000) rfl h1))
  -- the program runs on its own space
  obtain ⟨hspace, hpml4⟩ := (sampleSys_booted.run r2).onOwn _ rfl rfl rfl
  obtain ⟨hkern, hlow, d, k₂, hcopy⟩ := hfork _ _ _ rfl rfl hpml4 hspace
  have r3 := r2.snoc
    (goes_fork 0x3000 0xc000 (by decide) ⟨⟨_, rfl, rfl, rfl⟩, Or.inr ⟨rfl, by decide⟩⟩ (careful_fork rfl hlow)
    hkern hcopy rfl)
  -- the time slices of the program and of the bootstrap task
  have r4 := r3.snoc (goes_sched (o := .tick) ⟨trivial, trivial, fun h => by cases h⟩ rfl rfl rfl rfl)
  have r5 := r4.snoc (goes_sched (o := .tick) ⟨trivial, trivial, fun h => by cases h⟩ rfl ((Sched.tick_to rfl rfl).trans
    ((Sched.schedule_to (n := 0x1000) rfl rfl rfl (by decide) rfl).trans ((Sched.switchIn_eq _ _).trans rfl))) rfl rfl)
  have r6 := r5.snoc (goes_sched (o := .tick) ⟨trivial, trivial, fun h => by cases h⟩ rfl rfl rfl rfl)
  have h6 : d ≠ 0 ∧ d ≠ _ := own_of_run (t := 0x3000) r6 sampleSys_booted rfl rfl
  have r7 := r6.snoc (goes_sched (o := .tick) ⟨trivial, trivial, fun h => by cases h⟩ rfl ((Sched.tick_to rfl rfl).trans
    ((Sched.schedule_to (n := 0x3000) rfl rfl rfl (by decide) rfl).trans ((Sched.switchIn_eq _ _).trans rfl))) rfl
    (switchedTo_own (by decide : 0x3000 ≠ 0x1000) rfl h6))
  have h7 : pageAddr i ≠ 0 ∧ pageAddr i ≠ _ := own_of_run (t := 0x2000) r7 sampleSys_booted rfl rfl
  have r8 := r7.snoc
    (goes_sched (o := .exit 7) ⟨trivial, ⟨⟨_, rfl, rfl⟩, (by decide : 0x3000 ≠ 0x1000)⟩, fun h => by cases h⟩ rfl
    ((Sched.sysExit_to rfl rfl).trans
      ((Sched.schedule_to (n := 0x2000) rfl rfl rfl (by decide) rfl).trans ((Sched.switchIn_eq _ _).trans rfl))) rfl
    (switchedTo_own (by decide : 0x2000 ≠ 0x3000) rfl h7))
  refine ⟨_, _, _, _, r8, ⟨_, rfl, rfl, rfl⟩,
    ⟨trivial, ⟨⟨_, rfl, rfl⟩, (by decide : 0x2000 ≠ 0x1000)⟩, fun _ => ⟨_, rfl, rfl⟩⟩,
    step_overwrites rfl rfl rfl (by decide), rfl, rfl, rfl, ?_⟩
  change (7 : U64) - 0xFFFF800000000000 ≠ pageAddr i
  intro h
  have h7 : pageIdx ((7 : U64) - 0xFFFF800000000000) = 2 ^ 35 := by decide
  rw [h, Pmm.pageIdx_pageAddr (by omega)] at h7
  omega

theorem parent_on_own_space : ∃ ops s, Steps (Goes sampleLayout 0x1000) sampleSys ops s ∧ InUser s.sched ∧
    OnOwn sampleLayout s := by
  obtain ⟨ops, s, _, _, hrun, huser, _⟩ := parent_waits
  exact ⟨ops, s, hrun, huser, own_space sampleLayout 0x1000 sampleSys s ops sampleSys_booted hrun⟩

/-- **`wait4` stores to `pml4`.** The parent goes on in ring 3 with the status of its child in `pml4`. -/
theorem pml4_overwritten : ∃ ops s s', Booted sampleLayout 0x1000 sampleSys ∧
    Steps (Goes sampleLayout 0x1000) sampleSys ops s ∧
    Able sampleLayout 0x1000 s (.sched (.wait4 (-1) sampleLayout.pml4.addr)) ∧
    step sampleLayout s (.sched (.wait4 (-1) sampleLayout.pml4.addr)) = .ok s' ∧ ¬ OnOwn sampleLayout s' := by
  obtain ⟨ops, s, s', x, hrun, _, ha, hs, hx, hu, hpc, hne⟩ := parent_waits
  exact ⟨ops, s, s', sampleSys_booted, hrun, ha, hs, fun h => hne (h x hx hu hpc).2⟩

end Sample

end Sys

end Uix
