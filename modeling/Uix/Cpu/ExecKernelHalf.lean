/-
The kernel half of the space that `do_execve` installs. The old PML4 is given back while it is the active one, and
`vmm_create_space` copies the kernel half from it. `pmm_alloc` takes the first free page from its cursor on: if that is
the old PML4 itself, it is cleared before its entries are copied onto themselves, and the kernel is not mapped any more.

- `newSpace_upper`: the entries 256 .. 511 of the new PML4.
- `execve_keeps_kernel_half`: they are the old ones just if another page comes before the old PML4 in the scan.
- `execve_clears_kernel_half`: the cursor at the PML4.
-/
import Uix.Cpu.ExecFailure

namespace Uix.Exec

open Machine Radix Radix.Format List
open Pmm (pageIdx pageAddr)

/-- the pages that are free once the space of the task is given back -/
def FreeAfter (s : ExecState) (g : ℕ) : Prop :=
  g ∈ s.kern.pmm.freeSet ∨ g ∈ paging.tables s.kern.mem 3 (pageIdx s.task.cr3) lowerHalf ∨
    (g ∈ Kern.frames s.kern.mem (pageIdx s.task.cr3) ∧ s.kern.pmm.Lone g)

/-- the scan of `pmm_alloc` comes to some free page before it comes to the PML4 of the task -/
def AnotherFirst (s : ExecState) : Prop :=
  ∃ g, FreeAfter s g ∧ s.kern.pmm.distance g < s.kern.pmm.distance (pageIdx s.task.cr3)

/-- the kernel half of the active PML4 of `s'` is that of the PML4 that the task has in `s` -/
def KernelKept (s s' : ExecState) : Prop :=
  ∀ i ∈ upperHalf, s'.kern.mem s'.kern.pml4 i = s.kern.mem (pageIdx s.task.cr3) i

section NewSpace

variable {s s' : ExecState}

/-- **The new PML4**: its user half is empty, and its kernel half is copied unless it is the page of the old one. -/
theorem newSpace_upper (h : Caller s) : ∃ s' d, newSpace s = .ok s' ∧ s'.kern.pml4 = d ∧ FreeAfter s d ∧
    (∀ g, FreeAfter s g → s.kern.pmm.distance d ≤ s.kern.pmm.distance g) ∧ d < s.kern.pmm.bitmapLen ∧
    (∀ i ∈ lowerHalf, s'.kern.mem d i = 0) ∧
    ∀ i ∈ upperHalf, s'.kern.mem d i = if pageIdx s.task.cr3 = d then 0 else s.kern.mem (pageIdx s.task.cr3) i := by
  have hroot : pageIdx s.task.cr3 ∈ [pageIdx s.task.cr3] := mem_singleton_self _
  obtain ⟨p, htear, F⟩ := Kern.teardown_spec h.live.spaces hroot h.cr3_ne_zero
    (fun g hg => (h.live.tables g (mem_forest.2 ⟨_, hroot, hg⟩)).1) fun f hf => (h.live.pages _ hroot f hf).1
  obtain ⟨hscan, hlen⟩ := Kern.teardown_cursor h.cr3_ne_zero htear
  have hdist : ∀ g, p.distance g = s.kern.pmm.distance g := fun g => by
    rw [Pmm.distance, Pmm.distance, show p.nextFreeScan = _ from hscan, show p.bitmapLen = _ from hlen]
  have hafter : ∀ g, g ∈ p.freeSet ↔ FreeAfter s g := F.free
  have hpml4 : pageIdx s.task.cr3 ∈ p.freeSet := (hafter _).2 (.inr (.inl mem_cons_self))
  obtain ⟨pa, p', halloc, hcase⟩ := Pmm.pmmAlloc_spec F.ok
  rcases hcase with ⟨-, -, hnone⟩ | ⟨d, hd, rfl, hT⟩
  · rw [hnone] at hpml4
    exact absurd hpml4 (Finset.notMem_empty _)
  obtain ⟨hne, hidx⟩ := Pmm.pageIdx_of_free F.ok hd
  obtain ⟨⟨cr3, k1⟩, hcreate, d', hcr3, C⟩ := (@Kern.vmmCreateSpace_spec ((s.kern.vmmSwitch s.task.cr3).setPmm p)
    F.ok).exists_ok fun st hst => by
      have h0 : p.freeSet = ∅ := hst.2
      rw [h0] at hpml4
      exact absurd hpml4 (Finset.notMem_empty _)
  -- both come from one call of the allocator
  obtain rfl : d' = d := by
    have hrun := hcreate
    rw [Kern.vmmCreateSpace, Kern.pmmAlloc, Kern.setPmm_pmm, halloc] at hrun
    simp only [ok_bind, pure_eq_ok, if_neg hne, Except.ok.injEq, Prod.mk.injEq] at hrun
    rw [← hidx, hrun.1, show cr3 = pageAddr d' from hcr3, (Pmm.pageIdx_of_free F.ok C.fresh).2]
  dsimp only at hcr3 C
  subst hcr3
  refine ⟨{ s with kern := k1.vmmSwitch (pageAddr d'), task := { s.task with cr3 := pageAddr d' } }, d', ?_, hidx,
    (hafter d').1 hd, fun g hg => ?_, ?_, C.lower, C.upper⟩
  · unfold newSpace
    rw [htear, ok_bind, hcreate]
    rfl
  · have := Pmm.pmmAlloc_first F.ok halloc hne g ((hafter g).2 hg)
    rwa [hidx, hdist, hdist] at this
  · rw [← show p.bitmapLen = _ from hlen]
    exact (Pmm.mem_freeSet.1 hd).1

/-- looking the program up does not touch the old PML4 -/
theorem Caller.found_row {env : ExecEnv} {path : List (BitVec 8)} {o : Option (Image × Bool)} (h : Caller s)
    (hfind : findProgram env path s = .ok (o, s')) :
    s'.kern.mem (pageIdx s'.task.cr3) = s.kern.mem (pageIdx s.task.cr3) := by
  obtain ⟨o', s'', hrun, htask, B⟩ := @findProgram_spec env path s h.live.held h.live.spaces.trees.pmm
  obtain rfl : s'' = s' := by
    rw [hfind] at hrun
    cases hrun
    rfl
  rw [htask]
  exact (h.live.untouched B (.inl (root_mem_forest (List.mem_singleton_self _)))).2.2

/-- the first free page is another one than the PML4 of the task -/
theorem anotherFirst_iff {d : ℕ} (h : Caller s) (hd : FreeAfter s d)
    (hfirst : ∀ g, FreeAfter s g → s.kern.pmm.distance d ≤ s.kern.pmm.distance g) (hlt : d < s.kern.pmm.bitmapLen) :
    AnotherFirst s ↔ pageIdx s.task.cr3 ≠ d := by
  have hfree : FreeAfter s (pageIdx s.task.cr3) := .inr (.inl List.mem_cons_self)
  constructor
  · rintro ⟨g, hg, hahead⟩ rfl
    exact absurd (hfirst g hg) (Nat.not_le.2 hahead)
  · intro hne
    refine ⟨d, hd, lt_of_le_of_ne (hfirst _ hfree) fun heq => hne ?_⟩
    have hin : pageIdx s.task.cr3 < s.kern.pmm.bitmapLen :=
      h.live.spaces.trees.inside _ (root_mem_forest (List.mem_singleton_self _))
    exact (Pmm.eq_of_distance h.live.spaces.trees.pmm hlt hin heq).symm

/-- the kernel half is kept if the old PML4 is not the first free page -/
theorem Caller.kernelKept {env : ExecEnv} {path : List (BitVec 8)} {o : Option (Image × Bool)} {t : ExecState}
    (h : Caller s) (hfind : findProgram env path s = .ok (o, s')) (hnew : newSpace s' = .ok t)
    (hfirst : AnotherFirst s') : KernelKept s t := by
  have h1 := (h.found hfind).1
  obtain ⟨t', d, hnew', rfl, hd, hmin, hlt, -, hupper⟩ := newSpace_upper h1
  obtain rfl : t' = t := Except.ok.inj (hnew'.symm.trans hnew)
  intro i hi
  rw [hupper i hi, if_neg ((anotherFirst_iff h1 hd hmin hlt).1 hfirst), h.found_row hfind]

end NewSpace

/-- **The kernel half after execve.** The new PML4 has an empty user half. Its kernel half is that of the old one at the
time of the call, just if the scan of the allocator comes to another free page before the old PML4 (or there was nothing
in it). -/
theorem execve_keeps_kernel_half (env : ExecEnv) (upath : U64) (s s1 : ExecState) (img : Image) (h : Caller s)
    (hfound : Found env upath s img s1) :
    ∃ s2, newSpace s1 = .ok s2 ∧ (∀ i ∈ lowerHalf, s2.kern.mem s2.kern.pml4 i = 0) ∧
      (KernelKept s s2 ↔ AnotherFirst s1 ∨ ∀ i ∈ upperHalf, s.kern.mem (pageIdx s.task.cr3) i = 0) := by
  obtain ⟨copied, fromDisk, -, hfind⟩ := hfound
  have h1 := (h.found hfind).1
  have hsame := h.found_row hfind
  obtain ⟨s2, d, hnew, hpml4, hd, hfirst, hlt, hlower, hupper⟩ := newSpace_upper h1
  refine ⟨s2, hnew, by rw [hpml4]; exact hlower, ?_⟩
  have hkept : KernelKept s s2 ↔ ∀ i ∈ upperHalf,
      (if pageIdx s1.task.cr3 = d then 0 else s.kern.mem (pageIdx s.task.cr3) i) =
        s.kern.mem (pageIdx s.task.cr3) i := by
    rw [KernelKept, hpml4]
    refine forall₂_congr fun i hi => ?_
    rw [hupper i hi, hsame]
  rw [hkept, anotherFirst_iff h1 hd hfirst hlt]
  by_cases hd : pageIdx s1.task.cr3 = d
  · simp only [hd, if_true, ne_eq, not_true_eq_false, false_or]
    exact forall₂_congr fun i _ => eq_comm
  · simp only [ne_eq, hd, not_false_eq_true, true_or, if_false, implies_true]

/-! ## The cursor at the PML4 -/

/-- the page of `pageMem` holds the string `/sh`, and the last entry of the PML4 maps something for the kernel -/
def kernelMem : PhysMem := fun f i =>
  if f = 1 ∧ i = 511 then 0x6003#64 else if f = 5 ∧ i = 0 then 0x68732F#64 else pageMem f i

/-- the cursor of the allocator is at `c` -/
def kernelState (c : ℕ) : ExecState :=
  ⟨⟨kernelMem, { pageKern.pmm with nextFreeScan := c }, 1, pageAddr 1, pageAddr 1⟩, oneFile, pageState.task⟩

theorem kernelState_caller {c : ℕ} (hc : c < 64) : Caller (kernelState c) := by
  have L := pageState_caller.live
  have hroot : pageIdx pageState.task.cr3 = 1 := by decide
  have hidx : pageIdx (kernelState c).task.cr3 = 1 := hroot
  rw [hroot] at L
  have hA : Agree paging pageMem kernelMem 3 1 lowerHalf := by
    have htables : lowerHalf.flatMap (paging.tablesAt pageMem 3 1) = [2, 3, 4] := pageMem_gather _ _
    refine ⟨fun i hi => ?_, fun i hi g hg => ?_⟩
    · have hne : i ≠ 511 := by
        rintro rfl
        exact absurd (Kern.mem_lowerHalf.1 hi) (by decide)
      rw [kernelMem, if_neg fun hc => hne hc.2, if_neg fun hc => absurd hc.1 (by decide)]
    · have hmem : g ∈ [2, 3, 4] := htables ▸ mem_flatMap.2 ⟨i, hi, hg⟩
      funext j
      rw [kernelMem, if_neg, if_neg]
      · rintro ⟨rfl, -⟩
        exact absurd hmem (by decide)
      · rintro ⟨rfl, -⟩
        exact absurd hmem (by decide)
  have hok := L.spaces.trees.pmm
  have hspaces : (kernelState c).kern.Spaces [1] := by
    refine L.spaces.retained ?_ ⟨hok.words, hok.total, hok.small, hc, hok.count, hok.zero⟩ rfl L.spaces.trees.used
      L.spaces.used L.spaces.counted
    intro r hr
    rw [mem_singleton.1 hr]
    exact hA
  refine ⟨?_, rfl, pageState_caller.aligned⟩
  rw [hidx]
  refine (L.next hspaces rfl (fun _ hg => hg) (fun g hg => .inl ?_) fun r hr f hf => .inl ⟨r, hr, ?_⟩).1
  · change g ∈ paging.forest kernelMem 3 [1] lowerHalf at hg
    rw [Format.forest, flatMap_singleton, hA.tables] at hg
    exact mem_forest.2 ⟨1, mem_singleton_self 1, hg⟩
  · rw [mem_singleton.1 hr] at hf ⊢
    change f ∈ Kern.frames kernelMem 1 at hf
    rw [Kern.frames, hA.leaves] at hf
    exact hf

/-- the path at address 0 names the embedded program -/
theorem kernelState_found {c : ℕ} (hcopy : copyPath (kernelState c).kern 63 0 = .ok shName) :
    Found badElfEnv 0 (kernelState c) badElfEnv.sh (kernelState c) := by
  refine ⟨shName, false, hcopy, ?_⟩
  rw [findProgram, if_pos (by decide)]
  rfl

/-- **The first free page is the old PML4**: the kernel half of the new one is empty. -/
theorem execve_clears_kernel_half : ∃ env upath s s1 s2 img, Caller s ∧ Found env upath s img s1 ∧
    newSpace s1 = .ok s2 ∧ s.kern.mem (pageIdx s.task.cr3) 511 = 0x6003 ∧ s2.kern.mem s2.kern.pml4 511 = 0 := by
  have hcaller : Caller (kernelState 1) := kernelState_caller (by decide)
  have hok := hcaller.live.spaces.trees.pmm
  have hidx : pageIdx (kernelState 1).task.cr3 = 1 := by decide
  obtain ⟨s2, d, hnew, hpml4, -, hfirst, hlt, -, hupper⟩ := newSpace_upper hcaller
  -- the cursor is at the PML4, so no page comes before it
  have hzero : (kernelState 1).kern.pmm.distance 1 = 0 := by decide
  have hdist := hfirst 1 (.inr (.inl (by rw [hidx]; exact List.mem_cons_self)))
  rw [hzero, Nat.le_zero] at hdist
  obtain rfl : d = 1 := Pmm.eq_of_distance hok hlt (by decide) (hdist.trans hzero.symm)
  refine ⟨badElfEnv, 0, kernelState 1, kernelState 1, s2, badElfEnv.sh, hcaller,
    kernelState_found (by decide +kernel), hnew, by decide, ?_⟩
  rw [hpml4, hupper 511 (Kern.mem_upperHalf.2 (by decide)), if_pos hidx]

/-- with the cursor behind it the kernel stays mapped -/
theorem execve_kernel_half_kept : ∃ s2, newSpace (kernelState 7) = .ok s2 ∧ KernelKept (kernelState 7) s2 := by
  have hcaller : Caller (kernelState 7) := kernelState_caller (by decide)
  obtain ⟨s2, hnew, -, hkept⟩ :=
    execve_keeps_kernel_half badElfEnv 0 (kernelState 7) (kernelState 7) badElfEnv.sh hcaller
    (kernelState_found (by decide +kernel))
  refine ⟨s2, hnew, hkept.2 (.inl ⟨7, .inl ?_, by decide⟩)⟩
  have hfree : pageKern.pmm.freeSet = Finset.Ico 6 64 := Pmm.freeSet_fresh _ _ (by decide)
  change 7 ∈ pageKern.pmm.freeSet
  rw [hfree]
  decide

end Uix.Exec
