/-
Pages of live processes, over whole runs of `user_task_create`, `fork`, writes and `execve`.

A page shared by two processes has the reference count 1, not 2: `pmm_alloc` does not count the first owner. So when one
of the two calls `execve`, `pmm_unref` sees the last reference and gives the page back while the other process maps it.

- `Live.written`, `Live.forked`: a write and a fork beside other spaces.
- `Good.step`: one step keeps the spaces in order, and gives back no page that another process maps.
- `mapped_pages_stay_used`: so does every run in which no `execve` meets a shared page with the count 1.
- `execve_frees_shared_page`: a child's `execve` gives back the pages of its parent.
-/
import Uix.Cpu.ImageBytes
import Uix.Memory.PageFault

namespace Uix

open Machine Radix Radix.Format Bytes List Function Kern
open Pmm (pageIdx pageAddr)

/-! ## A write -/

section Write

variable {fs : Uixfs} {k k' : Kern} {roots : List ℕ} {va : UserAddr} {ring3 : Bool} {b : BitVec 8}

/-- a page that holds no table is filled -/
theorem Live.setPage (L : Live fs k roots) {f : ℕ} (hf : f ∉ paging.forest k.mem 3 roots lowerHalf)
    (row : Fin 512 → U64) : Live fs { k with mem := update k.mem f row } roots ∧
      ∀ g, Pool fs { k with mem := update k.mem f row } roots g → Pool fs k roots g := by
  have hA : ∀ r ∈ roots, Agree paging k.mem (update k.mem f row) 3 r lowerHalf := fun r hr =>
    Agree.setPage hf row hr
  refine L.next (L.spaces.setPage hf row) rfl (fun _ hg => hg) (fun g hg => .inl ?_) fun r hr f' hf' => .inl ⟨r, hr, ?_⟩
  · obtain ⟨r, hr, hg⟩ := mem_forest.1 hg
    rw [(hA r hr).tables] at hg
    exact mem_forest.2 ⟨r, hr, hg⟩
  · change f' ∈ frames (update k.mem f row) r at hf'
    rwa [frames, (hA r hr).leaves] at hf'

theorem Live.stored (L : Live fs k roots) (hr : k.pml4 ∈ roots) (hcr3 : frame k.cr3 = k.pml4)
    (h : k.store ring3 va.1 b = some k') : Lives fs k roots fs k' roots ∧ k'.pmm = k.pmm ∧ SameRegs k k' := by
  cases hw : paging.walk k.mem 3 k.pml4 (idx va.1) with
  | none =>
    rw [store_absent hcr3 hw] at h
    cases h
  | some p =>
    obtain ⟨e, rfl, -⟩ := L.spaces.walk_plain hr va.lower hw
    rw [L.spaces.store_leaf hr hcr3 hw] at h
    split_ifs at h
    rw [Option.some.injEq] at h
    subst h
    have hpage := frame_mem_frames (p := (0, e)) va.lower hw
    have htab := L.spaces.apart _ hr _ hpage
    refine ⟨⟨(L.setPage htab _).1, (L.setPage htab _).2, fun g hg => update_of_ne ?_ _ _⟩, rfl, rfl, rfl, rfl⟩
    rintro rfl
    exact hg (.inr (.inr (.inr ⟨_, hr, hpage⟩)))

/-- the page fault of a write: one leaf is written, for the same page or for one that was free -/
theorem Live.faulted {g : ℕ} {e : U64} (L : Live fs k roots) (hr : k.pml4 ∈ roots) (hleaf : CowLeaf k va.1 g e)
    (h : (∃ t, CowCopied k k' va.1 g e t) ∨ CowUnmarked k k' va.1 g e) :
    Lives fs k roots fs k' roots ∧ k'.pmm.freed = k.pmm.freed ∧ SameRegs k k' := by
  -- the table with the entry
  have hg : ∀ f, ¬ Pool fs k roots f → f ≠ g := by
    rintro f hf rfl
    exact hf (.inr (.inr (.inl (mem_forest.2 ⟨_, hr, hleaf.path.mem_tables va.lower⟩))))
  rcases h with ⟨t, C⟩ | C
  · have hS := L.spaces.copied hr hleaf C
    obtain ⟨hA, h1⟩ := L.spaces.copying C
    have P := patched_set (copiedEntry t e) h1.trees lowerHalf_nodup hr va.lower
      (hleaf.path.agree va.lower (hA _ hr))
    have ht40 := Pmm.lt_of_free C.fresh L.spaces.trees.phys
    have hmem : k'.mem = _ := congrArg mem C.state
    refine ⟨L.lives hS C.draws.len (fun f hf => ?_) (fun f hf => .inl ?_) (fun r hr' f hf => ?_) fun f hf => ?_,
      C.draws.freed, by rw [C.state]; exact ⟨rfl, rfl, rfl⟩⟩
    · rw [C.draws.free] at hf
      exact (Finset.mem_sdiff.1 hf).1
    · rw [hmem] at hf
      obtain ⟨r, hr', hf⟩ := mem_forest.1 (P.forest ▸ hf)
      rw [(hA r hr').tables] at hf
      exact mem_forest.2 ⟨r, hr', hf⟩
    · rw [hmem] at hf
      rcases mem_frames_written P hr' hf with hf | ⟨-, rfl⟩
      · rw [frames, (hA r hr').leaves] at hf
        exact .inl ⟨r, hr', hf⟩
      · rw [frame_copiedEntry ht40]
        exact .inr C.fresh
    · rw [hmem, set_mem_of_ne _ _ _ (hg f hf)]
      refine update_of_ne ?_ _ _
      rintro rfl
      exact hf (.inl C.fresh)
  · have hS := L.spaces.unmarked hr hleaf C
    have P := patched_set (unmarkedEntry e) L.spaces.trees lowerHalf_nodup hr va.lower hleaf.path
    obtain rfl : k' = _ := C.state
    refine ⟨L.lives hS rfl (fun _ hf => hf) (fun f hf => .inl (P.forest ▸ hf)) (fun r hr' f hf => .inl ?_)
      fun f hf => set_mem_of_ne _ _ _ (hg f hf), rfl, rfl, rfl, rfl⟩
    rcases mem_frames_written P hr' hf with hf | ⟨-, rfl⟩
    · exact ⟨r, hr', hf⟩
    · rw [frame_unmarkedEntry]
      exact ⟨_, hr, frame_mem_frames (p := (0, e)) va.lower hleaf.walk⟩

/-- **A write** in the user half. -/
theorem Live.written (L : Live fs k roots) (hr : k.pml4 ∈ roots) (hcr3 : frame k.cr3 = k.pml4) (va : UserAddr)
    (b : BitVec 8) : Meets (k.write ring3 va.1 b) NotFree fun k' =>
      Lives fs k roots fs k' roots ∧ k'.pmm.freed = k.pmm.freed ∧ SameRegs k k' := by
  have hstop : ∀ {p : Panic}, p ≠ .pmmDoubleFree → NotFree (.panic p) := fun hp hc => hp (by cases hc; rfl)
  unfold write
  rw [if_neg (not_not.2 va.canonical)]
  cases hst : k.store ring3 va.1 b with
  | some k' =>
    obtain ⟨L', hp, hregs⟩ := L.stored hr hcr3 hst
    exact meets_ok ⟨L', by rw [hp], hregs⟩
  | none =>
    simp only
    cases hm : mmuWalk k.mem 3 (frame k.cr3) (idx va.1) with
    | none =>
      -- not present: the handler gives up
      have hcode : ¬ (k.writeFaultCode ring3 va.1 &&& 3 = 3 ∧ va.1 < 0x0000800000000000#64) := by
        rw [writeFaultCode_and, hm]
        exact fun hc => absurd hc.1 (by decide)
      rw [vmmPageFault, if_pos hcode, pure_eq_ok, ok_bind]
      exact meets_error (hstop (by decide))
    | some t =>
      have hcode : k.writeFaultCode ring3 va.1 &&& 3 = 3 := by
        rw [writeFaultCode_and, hm]
        rfl
      refine ((vmmPageFault_spec L.spaces.trees.pmm va hcode).mono (fun st hst => ?_) fun _ h => h).bind ?_
      · rw [hst.1]
        exact hstop (by decide)
      rintro ⟨ret, k1⟩ (⟨hret, -⟩ | ⟨hret, g, e, hleaf, hcase⟩)
      · rw [Prod.mk.injEq] at hret
        rw [hret.1]
        exact meets_error (hstop (by decide))
      · obtain ⟨L1, hfreed, hregs⟩ := L.faulted hr hleaf hcase
        simp only at hret
        rw [hret, if_neg (not_not.2 rfl)]
        cases hst1 : k1.store ring3 va.1 b with
        | none => exact meets_error (hstop (by decide))
        | some k' =>
          obtain ⟨L', hp, hregs'⟩ := L1.live.stored (hregs.1 ▸ hr) (by rw [hregs.1, hregs.2.1, hcr3]) hst1
          exact meets_ok ⟨L1.trans L', by rw [hp, hfreed], hregs.trans hregs'⟩

theorem Live.writtenBytes (L : Live fs k roots) (hr : k.pml4 ∈ roots) (hcr3 : frame k.cr3 = k.pml4)
    (bs : List (BitVec 8)) {va : U64} (hva : va ≤ userEnd) : Meets (writeBytes bs va k) NotFree fun k' =>
      Lives fs k roots fs k' roots ∧ SameRegs k k' := by
  induction bs generalizing va k with
  | nil => exact meets_ok ⟨.refl L, rfl, rfl, rfl⟩
  | cons b bs ih =>
    by_cases hlt : va < userEnd
    · refine (L.written hr hcr3 ⟨va, hlt⟩ b).bind ?_
      rintro k1 ⟨L1, -, hregs⟩
      refine (ih L1.live (hregs.1 ▸ hr) (by rw [hregs.1, hregs.2.1, hcr3]) ?_).mono (fun _ hst => hst) ?_
      · rw [BitVec.lt_def, show userEnd.toNat = 2 ^ 47 from rfl] at hlt
        rw [BitVec.le_def, (user_next (by omega)).2, show userEnd.toNat = 2 ^ 47 from rfl]
        omega
      · rintro k2 ⟨L2, hregs'⟩
        exact ⟨L1.trans L2, hregs.trans hregs'⟩
    · -- the first address behind the user half is not canonical
      obtain rfl : va = userEnd := BitVec.le_antisymm hva (BitVec.not_lt.1 hlt)
      rw [writeBytes, write, if_pos (by decide)]
      exact meets_error fun hc => by cases hc

end Write

/-! ## A fork -/

theorem Live.forked {fs : Uixfs} {k k' : Kern} {roots : List ℕ} {d : ℕ} {S : Finset ℕ} (L : Live fs k roots)
    (hr : k.pml4 ∈ roots) (F : SpaceForked k k' d S) (hlow : ∀ f ∈ frames k.mem k.pml4, f < 2 ^ 20) :
    Lives fs k roots fs k' (d :: roots) := by
  refine L.lives (L.spaces.forked hr F hlow) F.draws.len (fun g hg => ?_) (fun g hg => ?_) (fun r hr' f hf => .inl ?_)
    fun f hf => F.outside f (fun hc => hf (.inl (F.draws.sub hc))) fun hc =>
      hf (.inr (.inr (.inl (mem_forest.2 ⟨_, hr, hc⟩))))
  · rw [F.draws.free] at hg
    exact (Finset.mem_sdiff.1 hg).1
  · obtain ⟨r, hr', hgr⟩ := mem_forest.1 hg
    rcases mem_cons.1 hr' with rfl | hr'
    · exact .inr (F.draws.sub (F.fresh g hgr))
    · rw [L.spaces.trees.forked_tables hr F hr'] at hgr
      exact .inl (mem_forest.2 ⟨r, hr', hgr⟩)
  · by_cases hcase : r = k.pml4 ∨ r = d
    · rw [F.frames_eq hlow hcase] at hf
      exact ⟨_, hr, hf⟩
    · rw [not_or] at hcase
      have hmem := (mem_cons.1 hr').resolve_left hcase.2
      rw [frames, (L.spaces.trees.forked_other hr F hmem hcase.1).leaves] at hf
      exact ⟨r, hmem, hf⟩

/-! ## Processes -/

structure Tasks where
  kern : Kern
  fs : Uixfs
  tasks : List ExecTask

namespace Tasks

/-- what happens: a new task `t` gets its space from `user_task_create` or from `fork`, a process writes a byte, or
calls `execve`; the image embedded in the kernel and the surroundings of a call are part of the event -/
inductive Op where
  | create (img : Image) (t : ExecTask)
  | fork (p : ℕ) (t : ExecTask)
  | write (p : ℕ) (va : UserAddr) (b : BitVec 8)
  | execve (p : ℕ) (env : ExecEnv) (upath : U64)

/-- the process that acts -/
def Op.actor : Op → Option ℕ
  | .create _ _ => none
  | .fork p _ => some p
  | .write p _ _ => some p
  | .execve p _ _ => some p

/-- one step; a process runs on its own space -/
def step (trampoline : U64) (s : Tasks) : Op → Except Stop Tasks
  | .create img t => do
    let (cr3, k) ← s.kern.userTaskImage img
    pure ⟨k, s.fs, s.tasks ++ [{ t with cr3 := cr3 }]⟩
  | .fork p t =>
    match s.tasks[p]? with
    | none => pure s
    | some c => do
      let (pa, k) ← (s.kern.vmmSwitch c.cr3).vmmForkUserSpace
      pure ⟨k, s.fs, s.tasks ++ [{ t with cr3 := pa }]⟩
  | .write p va b =>
    match s.tasks[p]? with
    | none => pure s
    | some c => do
      let k ← (s.kern.vmmSwitch c.cr3).write true va.1 b
      pure { s with kern := k }
  | .execve p env upath =>
    match s.tasks[p]? with
    | none => pure s
    | some c => do
      let (_, e) ← Exec.doExecve env trampoline upath ⟨s.kern.vmmSwitch c.cr3, s.fs, c⟩
      pure ⟨e.kern, e.fs, s.tasks.set p e.task⟩

/-- the pages that a task maps -/
def pages (s : Tasks) (c : ExecTask) : List ℕ := Kern.frames s.kern.mem (frame c.cr3)

/-- the step does not meet what the source gets wrong: an image that leaves the user half, a fork of a page from 4 GiB
on, or an `execve` of a program that is there, by a process that shares a page whose reference count is 1 -/
def Safe (s : Tasks) : Op → Prop
  | .create img _ => img.len.toNat + 0x400000 ≤ 2 ^ 47
  | .fork p _ => ∀ c, s.tasks[p]? = some c → ∀ f ∈ s.pages c, f < 2 ^ 20
  | .write _ _ _ => True
  | .execve p env upath => ∀ c, s.tasks[p]? = some c →
    ∀ img s', Exec.Found env upath ⟨s.kern.vmmSwitch c.cr3, s.fs, c⟩ img s' → UserImage img ∧
      ∀ q c', q ≠ p → s.tasks[q]? = some c' → ∀ f ∈ s.pages c, f ∈ s.pages c' → s.kern.pmm.counts f ≠ 1

/-- every page that a task maps is in use -/
def MappedUsed (s : Tasks) : Prop := ∀ c ∈ s.tasks, ∀ f ∈ s.pages c, f < s.kern.pmm.bitmapLen ∧ f ∉ s.kern.pmm.freeSet

/-- the step does not end in the panic of a double free, and gives back no page that another task maps -/
def FreesOwn (trampoline : U64) (s : Tasks) (o : Op) : Prop :=
  s.step trampoline o ≠ .error (.panic .pmmDoubleFree) ∧
    ∀ t, s.step trampoline o = .ok t → s.kern.pmm.Frees t.kern.pmm fun g =>
      ∀ q c, some q ≠ o.actor → s.tasks[q]? = some c → g ∉ s.pages c

structure Good (s : Tasks) : Prop where
  addrs : ∀ c ∈ s.tasks, pageIdx c.cr3 = frame c.cr3
  live : Live s.fs s.kern (s.tasks.map fun c => frame c.cr3)

section Step

variable {s : Tasks} {p : ℕ} {c : ExecTask} {trampoline : U64}

/-- before the first task -/
theorem Good.nil {k : Kern} {fs : Uixfs} (hk : k.pmm.Ok) (hphys : k.pmm.bitmapLen ≤ 2 ^ 40) (hheld : fs.Held k) :
    Good ⟨k, fs, []⟩ :=
  ⟨fun _ hc => absurd hc not_mem_nil, .nil hk hphys, hheld, fun _ hr => absurd hr not_mem_nil,
    fun _ hr => absurd hr not_mem_nil⟩

theorem Good.pml4 (h : Good s) (hp : s.tasks[p]? = some c) : (s.kern.vmmSwitch c.cr3).pml4 = frame c.cr3 :=
  h.addrs c (mem_of_getElem? hp)

theorem mem_roots (hp : s.tasks[p]? = some c) : frame c.cr3 ∈ s.tasks.map fun c => frame c.cr3 :=
  mem_map.2 ⟨c, mem_of_getElem? hp, rfl⟩

/-- a task more -/
theorem Good.snoc {fs : Uixfs} {k : Kern} {t : ExecTask} (haddrs : ∀ c ∈ s.tasks, pageIdx c.cr3 = frame c.cr3)
    (L : Live fs k (frame t.cr3 :: s.tasks.map fun c => frame c.cr3)) (ht : pageIdx t.cr3 = frame t.cr3) :
    Good ⟨k, fs, s.tasks ++ [t]⟩ := by
  refine ⟨fun c hc => ?_, ?_⟩
  · rcases mem_append.1 hc with hc | hc
    · exact haddrs c hc
    · rwa [mem_singleton.1 hc]
  · rw [map_append, map_singleton]
    exact (L.perm (perm_append_singleton _ _).symm).live

theorem Good.create {img : Image} {t : ExecTask} (h : Good s) (hsafe : Safe s (.create img t)) :
    Meets (s.step trampoline (.create img t)) NotFree fun s' => Good s' ∧ s'.kern.pmm.freed = s.kern.pmm.freed := by
  refine (userTaskImage_spec hsafe h.live).bind ?_
  rintro ⟨cr3, k⟩ ⟨d, rfl, hd, L, -, hfreed⟩
  have hfr : frame (pageAddr d) = d := frame_pageAddr hd
  refine meets_ok ⟨Good.snoc h.addrs ?_ ?_, hfreed⟩
  · rw [hfr]
    exact L.live
  · rw [hfr]
    exact Pmm.pageIdx_pageAddr (by omega)

theorem Good.fork {t : ExecTask} (h : Good s) (hsafe : Safe s (.fork p t)) :
    Meets (s.step trampoline (.fork p t)) NotFree fun s' => Good s' ∧ s'.kern.pmm.freed = s.kern.pmm.freed := by
  simp only [step]
  cases hp : s.tasks[p]? with
  | none => exact meets_ok ⟨h, rfl⟩
  | some c =>
    have L := h.live.switch c.cr3
    have hr : (s.kern.vmmSwitch c.cr3).pml4 ∈ s.tasks.map fun c => frame c.cr3 := by
      rw [h.pml4 hp]
      exact mem_roots hp
    have hlow : ∀ f ∈ frames (s.kern.vmmSwitch c.cr3).mem (s.kern.vmmSwitch c.cr3).pml4, f < 2 ^ 20 := by
      rw [h.pml4 hp]
      exact hsafe c hp
    refine ((vmmFork_spec (L.spaces.spacePre hr)).mono (fun st hst => ?_) fun _ h => h).bind ?_
    · rcases hst.1 with rfl | rfl | rfl <;> exact fun hc => by cases hc
    rintro ⟨pa, k'⟩ ⟨d, S, rfl, hd, F⟩
    have hd40 := Pmm.lt_of_free hd h.live.spaces.trees.phys
    have hfr : frame (pageAddr d) = d := frame_pageAddr hd40
    refine meets_ok ⟨Good.snoc h.addrs ?_ ?_, F.draws.freed⟩
    · rw [hfr]
      exact (L.forked hr F hlow).live
    · rw [hfr]
      exact Pmm.pageIdx_pageAddr (by omega)

theorem Good.write {va : UserAddr} {b : BitVec 8} (h : Good s) :
    Meets (s.step trampoline (.write p va b)) NotFree fun s' => Good s' ∧ s'.kern.pmm.freed = s.kern.pmm.freed := by
  simp only [step]
  cases hp : s.tasks[p]? with
  | none => exact meets_ok ⟨h, rfl⟩
  | some c =>
    have hr : (s.kern.vmmSwitch c.cr3).pml4 ∈ s.tasks.map fun c => frame c.cr3 := by
      rw [h.pml4 hp]
      exact mem_roots hp
    refine ((h.live.switch c.cr3).written hr (h.pml4 hp).symm va b).bind ?_
    rintro k ⟨L, hfreed, -⟩
    exact meets_ok ⟨⟨h.addrs, L.live⟩, hfreed⟩

/-- the roots of a process and of the others -/
theorem roots_perm (hp : s.tasks[p]? = some c) : (s.tasks.map fun c => frame c.cr3).Perm
    (frame c.cr3 :: (s.tasks.eraseIdx p).map fun c => frame c.cr3) := by
  obtain ⟨hlt, hc⟩ := List.getElem?_eq_some_iff.1 hp
  have := (getElem_cons_eraseIdx_perm hlt).map fun c : ExecTask => frame c.cr3
  rw [hc] at this
  exact this.symm

theorem Good.execve {env : ExecEnv} {upath : U64} (h : Good s) (hsafe : Safe s (.execve p env upath)) :
    Meets (s.step trampoline (.execve p env upath)) NotFree fun s' => Good s' ∧
      s.kern.pmm.Frees s'.kern.pmm fun g => ∀ q c, some q ≠ some p → s.tasks[q]? = some c → g ∉ s.pages c := by
  simp only [step]
  cases hp : s.tasks[p]? with
  | none => exact meets_ok ⟨h, .none rfl⟩
  | some c =>
    have hidx : pageIdx c.cr3 = frame c.cr3 := h.addrs c (mem_of_getElem? hp)
    have L := ((h.live.switch c.cr3).perm (roots_perm hp)).live
    have hother : ∀ r ∈ (s.tasks.eraseIdx p).map fun c => frame c.cr3, ∃ q c', q ≠ p ∧ s.tasks[q]? = some c' ∧
        frame c'.cr3 = r := by
      intro r hr
      obtain ⟨c', hc', rfl⟩ := mem_map.1 hr
      obtain ⟨q, hq, hc'⟩ := mem_eraseIdx_iff_getElem?.1 hc'
      exact ⟨q, c', hq, hc', rfl⟩
    have hnodup := roots_nodup L.spaces.trees.nodup
    have hshared : ∀ img s', Exec.Found env upath ⟨s.kern.vmmSwitch c.cr3, s.fs, c⟩ img s' →
        ∀ r ∈ (s.tasks.eraseIdx p).map fun c => frame c.cr3, ∀ f ∈ frames s.kern.mem (frame c.cr3),
        f ∈ frames s.kern.mem r → 2 ≤ s.kern.pmm.counts f := by
      intro img s' hfound r hr f hf hf'
      have hne : frame c.cr3 ≠ r := fun hc => (nodup_cons.1 hnodup).1 (hc ▸ hr)
      have h1 := L.spaces.counted _ mem_cons_self r (mem_cons_of_mem _ hr) hne f hf hf'
      obtain ⟨q, c', hq, hc', rfl⟩ := hother r hr
      have h2 := (hsafe c hp img s' hfound).2 q c' hq hc' f hf hf'
      change 1 ≤ s.kern.pmm.counts f at h1
      omega
    rw [← hidx] at L hshared
    refine (Exec.doExecve_live (s := ⟨s.kern.vmmSwitch c.cr3, s.fs, c⟩) L hshared hidx.symm
      fun img s' hfound => (hsafe c hp img s' hfound).1).bind ?_
    rintro ⟨r, e⟩ ⟨d, M⟩
    refine meets_ok ⟨⟨fun c' hc' => ?_, ?_⟩, M.frees.mono fun g hg q c' hq hc' => ?_⟩
    · rcases mem_or_eq_of_mem_set hc' with hc' | rfl
      · exact h.addrs c' hc'
      · exact M.idx.trans M.aligned.symm
    · have hlt := (List.getElem?_eq_some_iff.1 hp).1
      have hperm := (set_perm_cons_eraseIdx hlt e.task).map fun c : ExecTask => frame c.cr3
      rw [map_cons, M.aligned] at hperm
      exact (M.lives.live.perm hperm.symm).live
    · refine hg _ (mem_map.2 ⟨c', mem_eraseIdx_iff_getElem?.2 ⟨q, ?_, hc'⟩, rfl⟩)
      exact fun hc => hq (congrArg some hc)

/-- **One step.** -/
theorem Good.step {o : Op} (h : Good s) (hsafe : Safe s o) :
    Meets (s.step trampoline o) NotFree fun s' => Good s' ∧
      s.kern.pmm.Frees s'.kern.pmm fun g => ∀ q c, some q ≠ o.actor → s.tasks[q]? = some c → g ∉ s.pages c := by
  cases o with
  | create img t => exact (h.create hsafe).mono (fun _ hst => hst) fun _ h => ⟨h.1, .none h.2⟩
  | fork p t => exact (h.fork hsafe).mono (fun _ hst => hst) fun _ h => ⟨h.1, .none h.2⟩
  | write p va b => exact h.write.mono (fun _ hst => hst) fun _ h => ⟨h.1, .none h.2⟩
  | execve p env upath => exact h.execve hsafe

theorem Good.mappedUsed (h : Good s) : MappedUsed s := fun _ hc f hf =>
  have hr := mem_map.2 ⟨_, hc, rfl⟩
  ⟨h.live.spaces.inside _ hr f hf, h.live.spaces.used _ hr f hf⟩

end Step

/-- **Mapped pages stay in use**, in every run from a kernel without processes in which no image leaves the user half,
no fork meets a page from 4 GiB on, and no `execve` meets a shared page whose reference count is 1; and no step of it
gives back a page that another process maps, or one that is free. -/
theorem mapped_pages_stay_used (trampoline : U64) (k : Kern) (fs : Uixfs) (ops : List Op) (s : Tasks) (hk : k.pmm.Ok)
    (hphys : k.pmm.bitmapLen ≤ 2 ^ 40) (hheld : fs.Held k)
    (hrun : Steps (fun s o t => Safe s o ∧ s.step trampoline o = .ok t) ⟨k, fs, []⟩ ops s) :
    MappedUsed s ∧ ∀ o, Safe s o → FreesOwn trampoline s o := by
  have hgood : Good s := Steps.inv (fun s o t h hstep => ((h.step hstep.1).of_eq hstep.2).1) (.nil hk hphys hheld) hrun
  refine ⟨hgood.mappedUsed, fun o hsafe => ⟨fun hc => ?_, fun t ht => ((hgood.step hsafe).of_eq ht).2⟩⟩
  exact (hgood.step hsafe).stop hc rfl

/-! ## A parent and a child -/

/-- 1024 pages, two of them in use, and nothing in them -/
def emptyKern : Kern := ⟨fun _ _ => 0, Pmm.fresh 1024 2 (some fun _ => 0), 1, pageAddr 1, pageAddr 1⟩

def noFiles : Uixfs := ⟨fun _ => 0, 0, false, fun _ => 0, none, 0⟩

/-- a program without code -/
def noProgram : Image := ⟨0, fun _ => none⟩

/-- the name `/sh` is left in the buffer from an earlier call -/
def shEnv : ExecEnv := ⟨noProgram, noProgram, fun _ => none, fun _ => none, fun i => Exec.shName.getD i 0⟩

/-- a task before it has a space -/
def newTask : ExecTask := ⟨0, 0, 0xFFFFFFFF90000000#64, 16384, fun _ => 0⟩

/-- the lowest page of the stack -/
def stackVa : UserAddr := ⟨0x7C0000#64, by decide⟩

theorem emptyKern_free : emptyKern.pmm.freeSet.card = 1022 := by
  rw [show emptyKern.pmm.freeSet = Finset.Ico 2 1024 from Pmm.freeSet_fresh _ _ (by decide), Nat.card_Ico]

theorem emptyKern_ok : emptyKern.pmm.Ok := Pmm.fresh_ok _ (by decide) (by decide) (by decide) (by decide)

theorem noFiles_held (k : Kern) : noFiles.Held k := ⟨fun pa hpa => absurd hpa.symm (Option.some_ne_none pa),
  fun _ hj => absurd hj not_mem_nil, fun _ hj => absurd hj not_mem_nil⟩

theorem noProgram_safe {s : Tasks} {t : ExecTask} : Safe s (.create noProgram t) :=
  show noProgram.len.toNat + 0x400000 ≤ 2 ^ 47 by decide

/-- a process with an empty page at the bottom of its stack, and enough free pages for another -/
structure Fresh (s : Tasks) (c : ExecTask) : Prop where
  good : Good s
  tasks : s.tasks = [c]
  len : s.kern.pmm.bitmapLen = 1024
  refs : s.kern.pmm.refcounts = some fun _ => 0
  free : 765 ≤ s.kern.pmm.freeSet.card
  page : ∃ e, paging.walk s.kern.mem 3 (frame c.cr3) (idx stackVa.1) = some (0, e) ∧
    getByte (s.kern.mem (frame e)) 0 = 0

/-- the space of the first process, whatever memory holds -/
theorem first_space (m : PhysMem) : ∃ cr3 k₁ e, userTaskImage noProgram { emptyKern with mem := m } = .ok (cr3, k₁) ∧
    (k₁.pmm.bitmapLen = 1024 ∧ k₁.pmm.refcounts = (some fun _ => 0) ∧ 765 ≤ k₁.pmm.freeSet.card) ∧
    paging.walk k₁.mem 3 (frame cr3) (idx stackVa.1) = some (0, e) ∧ frame e ∈ emptyKern.pmm.freeSet ∧
    getByte (k₁.mem (frame e)) 0 = getByte (m (frame e)) 0 ∧
    userByte k₁.mem (frame cr3) stackVa.1 = some (getByte (m (frame e)) 0) := by
  have hphys : emptyKern.pmm.bitmapLen ≤ 2 ^ 40 := by decide
  obtain ⟨⟨pa, k1⟩, hcreate, d, hpa, C⟩ :=
    (vmmCreateSpace_spec (k := { emptyKern with mem := m }) emptyKern_ok).exists_ok fun st hst => by
      have := emptyKern_free
      rw [show emptyKern.pmm.freeSet = ∅ from hst.2] at this
      exact absurd this (by decide)
  dsimp only at hpa C
  subst hpa
  obtain ⟨hfresh, hpml4⟩ := C.freshSpace hphys
  have hcard : (k1.vmmSwitch (pageAddr d)).pmm.freeSet.card + 1 = 1022 := (card_of_taken C.takes).trans emptyKern_free
  obtain ⟨k2, hstack, hs, W, hroom⟩ := hfresh.stack (by omega)
  obtain ⟨S, F⟩ := W.fill
  obtain ⟨-, n, e, hw, -⟩ := hs.covered (a := stackVa.1) ⟨stackVa.1, by decide +kernel, rfl⟩
  have hfree : frame e ∈ k1.pmm.freeSet := F.takes.sub (F.pages _ (frame_mem_frames (p := (0, e)) stackVa.lower hw))
  have hne : frame e ≠ d := fun hc => C.takes.draws.taken_notMem_free (Finset.mem_singleton_self d) (hc ▸ hfree)
  have hread := W.read stackVa
  rw [hw, Option.map_some, show (k1.vmmSwitch (pageAddr d)).mem (frame e) = m (frame e) from C.other _ hne] at hread
  have hview := F.view stackVa
  rw [hread, hw, Option.map_some, Option.some.injEq] at hview
  rw [hpml4] at hw hread
  have hfr : frame (pageAddr d) = d := frame_pageAddr (Pmm.lt_of_free C.fresh hphys)
  refine ⟨pageAddr d, k2.vmmSwitch k2.kernelCr3, e, ?_, ⟨?_, ?_, ?_⟩, ?_, ?_, hview.symm, ?_⟩
  · exact bind_ok.2 ⟨_, hcreate, bind_ok.2 ⟨_, rfl, bind_ok.2 ⟨_, hstack, rfl⟩⟩⟩
  · exact (F.takes.len.trans C.takes.len).trans rfl
  · exact (F.takes.refs.trans C.takes.refs).trans rfl
  · change 765 ≤ k2.pmm.freeSet.card
    omega
  · rw [hfr]
    exact hw
  · rw [C.takes.free] at hfree
    exact (Finset.mem_sdiff.1 hfree).1
  · rw [hfr]
    exact hread

/-- the first process -/
theorem created {m : PhysMem} (hm : ∀ f ∈ emptyKern.pmm.freeSet, m f = fun _ => 0) :
    ∃ cr3 k₁, userTaskImage noProgram { emptyKern with mem := m } = .ok (cr3, k₁) ∧
      Fresh ⟨k₁, noFiles, [{ newTask with cr3 := cr3 }]⟩ { newTask with cr3 := cr3 } := by
  obtain ⟨cr3, k₁, e, hrun, ⟨hlen, hrefs, hroom⟩, hw, hfree, hbyte, -⟩ := first_space m
  have hgood : Good ⟨{ emptyKern with mem := m }, noFiles, []⟩ := .nil emptyKern_ok
    (show emptyKern.pmm.bitmapLen ≤ 2 ^ 40 by decide) (noFiles_held _)
  have hstep : step 0 ⟨{ emptyKern with mem := m }, noFiles, []⟩ (.create noProgram newTask) = .ok _ :=
    bind_ok.2 ⟨_, hrun, rfl⟩
  refine ⟨cr3, k₁, hrun, ((hgood.create noProgram_safe).of_eq hstep).1, rfl, hlen, hrefs, hroom, e, hw, hbyte.trans ?_⟩
  rw [hm _ hfree]
  decide +kernel

/-- its creation is a step -/
theorem created_step : ∃ s c, step 0 ⟨emptyKern, noFiles, []⟩ (.create noProgram newTask) = .ok s ∧ Fresh s c := by
  obtain ⟨cr3, k₁, hrun, F⟩ := created (m := emptyKern.mem) fun _ _ => rfl
  exact ⟨_, _, bind_ok.2 ⟨_, hrun, rfl⟩, F⟩

theorem readByte_of_userByte {k : Kern} {va : UserAddr} {b : BitVec 8}
    (h : userByte k.mem (frame k.cr3) va.1 = some b) : k.readByte va.1 = .ok b := by
  rw [readByte, if_neg (not_not.2 va.canonical)]
  unfold userByte at h
  cases hm : mmuWalk k.mem 3 (frame k.cr3) (idx va.1) with
  | none =>
    rw [hm] at h
    cases h
  | some t =>
    simp only [hm] at h
    split_ifs at h
    exact congrArg Except.ok (Option.some.inj h)

/-- the path is empty, so the name left in the buffer is looked up -/
theorem sh_found {s : ExecState} (hbyte : userByte s.kern.mem (frame s.kern.cr3) stackVa.1 = some 0) :
    Exec.copyPath s.kern 63 stackVa.1 = .ok [] ∧
      Exec.findProgram shEnv (Exec.pathString shEnv.stale []) s = .ok (some (noProgram, false), s) := by
  have hnamed : Exec.named (Exec.pathString shEnv.stale []) Exec.shName = true := by decide +kernel
  refine ⟨?_, ?_⟩
  · rw [Exec.copyPath, readByte_of_userByte hbyte]
    rfl
  · rw [Exec.findProgram, if_pos hnamed]
    rfl

/-- `execve` of the program without code, by a process whose own space is in order -/
theorem execve_ok {s : ExecState} (L : Live s.fs s.kern [pageIdx s.task.cr3])
    (hbyte : userByte s.kern.mem (frame s.kern.cr3) stackVa.1 = some 0) (hroom : 256 ≤ s.kern.pmm.freeSet.card) :
    ∃ s' l, Exec.doExecve shEnv 0 stackVa.1 s = .ok (.launched userCodeBase (userStackTop - 16), s') ∧
      s.kern.pmm.freeSet.card ≤ s'.kern.pmm.freeSet.card + 256 ∧ s'.kern.pmm.bitmapLen = s.kern.pmm.bitmapLen ∧
      s'.kern.pmm.freed = l ++ s.kern.pmm.freed ∧ ∀ g, g ∈ l ↔
      g ∈ paging.tables s.kern.mem 3 (pageIdx s.task.cr3) lowerHalf ∨
        (g ∈ frames s.kern.mem (pageIdx s.task.cr3) ∧ s.kern.pmm.Lone g) := by
  have h0 : s.task.cr3 ≠ 0 := fun hc =>
    (L.tables _ (root_mem_forest mem_cons_self)).1 (show pageIdx s.task.cr3 = 0 by rw [hc]; rfl)
  obtain ⟨s2, d, hspace, N⟩ := Exec.newSpace_spec L h0 fun r hr => absurd hr not_mem_nil
  obtain ⟨k3, hstack, -, W, hleft⟩ := N.fresh.stack (hroom.trans N.room)
  obtain ⟨S, F⟩ := W.fill
  obtain ⟨l, hl, hmem⟩ := N.freed
  refine ⟨⟨k3, s2.fs, Exec.launch 0 userCodeBase (userStackTop - 16) s2.task⟩, l, ?_, N.room.trans hleft,
    F.takes.len.trans N.len, F.takes.freed.trans hl, hmem⟩
  obtain ⟨hcopy, hfind⟩ := sh_found hbyte
  have hload : Exec.loadImage noProgram (Exec.pathString shEnv.stale []) s2.kern =
      .ok (some (userCodeBase, userStackTop - 16), k3) :=
    bind_ok.2 ⟨false, rfl, bind_ok.2 ⟨s2.kern, rfl, bind_ok.2 ⟨k3, hstack, rfl⟩⟩⟩
  rw [Exec.doExecve, hcopy, ok_bind]
  dsimp only
  rw [hfind, ok_bind]
  dsimp only
  rw [hspace, ok_bind, hload]
  rfl

section Family

variable {s : Tasks} {c : ExecTask}

theorem Fresh.mem (F : Fresh s c) : s.tasks[0]? = some c := by rw [F.tasks]; rfl

theorem Fresh.low (F : Fresh s c) : ∀ f ∈ s.pages c, f < 2 ^ 20 := by
  intro f hf
  have := F.good.live.spaces.inside _ (mem_roots F.mem) f hf
  rw [F.len] at this
  omega

theorem Fresh.live (F : Fresh s c) : Live s.fs s.kern [frame c.cr3] := by
  have := F.good.live
  rwa [F.tasks] at this

theorem Fresh.byte (F : Fresh s c) : userByte s.kern.mem (frame c.cr3) stackVa.1 = some 0 := by
  obtain ⟨e, hw, hzero⟩ := F.page
  rw [F.good.live.spaces.view (mem_roots F.mem), hw, Option.map_some]
  exact congrArg some hzero

/-- the child after a fork: it maps the pages of the parent, each with one reference -/
structure Child (s t : Tasks) (c d : ExecTask) : Prop where
  good : Good t
  tasks : t.tasks = [c, d]
  pages : t.pages d = t.pages c
  shared : t.pages c = s.pages c
  lone : ∀ f ∈ t.pages d, t.kern.pmm.Lone f
  free : 256 ≤ t.kern.pmm.freeSet.card
  byte : userByte t.kern.mem (frame d.cr3) stackVa.1 = some 0

theorem Fresh.forked (F : Fresh s c) : ∃ t d, s.step 0 (.fork 0 newTask) = .ok t ∧ Child s t c d := by
  have hidx := F.good.pml4 F.mem
  have hr : (s.kern.vmmSwitch c.cr3).pml4 ∈ s.tasks.map fun c => frame c.cr3 := by
    rw [hidx]
    exact mem_roots F.mem
  have L := F.good.live.switch c.cr3
  have hlow : ∀ f ∈ frames (s.kern.vmmSwitch c.cr3).mem (s.kern.vmmSwitch c.cr3).pml4, f < 2 ^ 20 := by
    rw [hidx]
    exact F.low
  have hrefs : s.kern.pmm.refcounts ≠ none := by rw [F.refs]; exact Option.some_ne_none _
  have hfree := F.free
  have hroom := L.spaces.room hr
  change _ + s.kern.pmm.freeSet.card ≤ s.kern.pmm.bitmapLen at hroom
  rw [F.len] at hroom
  obtain ⟨⟨pa, k'⟩, hrun, d, S, hpa, hd, D⟩ := (vmmFork_spec (L.spaces.spacePre hr)).exists_ok fun st hst => by
    rcases hst.2 with hc | hc
    · exact hrefs hc
    · change s.kern.pmm.freeSet.card < _ at hc
      omega
  dsimp only at hpa D
  subst hpa
  have hd40 := Pmm.lt_of_free hd L.spaces.trees.phys
  have hfr : frame (pageAddr d) = d := frame_pageAddr hd40
  have hstep : s.step 0 (.fork 0 newTask) = .ok ⟨k', s.fs, s.tasks ++ [{ newTask with cr3 := pageAddr d }]⟩ := by
    simp only [step, F.mem, hrun, ok_bind, pure_eq_ok]
  have hold : frames k'.mem (frame c.cr3) = frames s.kern.mem (frame c.cr3) := by
    rw [D.frames_eq hlow (.inl hidx.symm), hidx]
    rfl
  have hnew : frames k'.mem d = frames s.kern.mem (frame c.cr3) := by
    rw [D.frames_eq hlow (.inr rfl), hidx]
    rfl
  refine ⟨_, { newTask with cr3 := pageAddr d }, hstep, ((F.good.fork fun c' hc' => ?_).of_eq hstep).1, ?_, ?_, hold,
    fun f hf => ?_, ?_, ?_⟩
  · rw [F.mem, Option.some.injEq] at hc'
    exact hc' ▸ F.low
  · rw [F.tasks]
    rfl
  · change frames k'.mem (frame (pageAddr d)) = frames k'.mem (frame c.cr3)
    rw [hfr, hnew, hold]
  · refine ⟨(D.taken hrefs).1, ?_⟩
    have hnodup : (userFrames s.kern.pmm.bitmapLen
        (paging.leaves (s.kern.vmmSwitch c.cr3).mem 3 (s.kern.vmmSwitch c.cr3).pml4 lowerHalf)).Nodup :=
      (L.spaces.own _ hr).sublist (userFrames_sublist _ _)
    change k'.pmm.counts f ≤ 1
    rw [D.counts]
    have hzero : (s.kern.vmmSwitch c.cr3).pmm.counts f = 0 := by
      change s.kern.pmm.counts f = 0
      rw [Pmm.counts, F.refs]
      rfl
    have := Pmm.foldl_bump_le hnodup (s.kern.vmmSwitch c.cr3).pmm.counts f
    rw [hzero] at this
    refine this.trans ?_
    split_ifs <;> omega
  · change 256 ≤ k'.pmm.freeSet.card
    rw [D.draws.free, Finset.card_sdiff_of_subset D.draws.sub, (D.taken hrefs).2]
    change 256 ≤ s.kern.pmm.freeSet.card - _
    omega
  · change userByte k'.mem (frame (pageAddr d)) stackVa.1 = some 0
    rw [hfr, (L.spaces.forked_view hr D hlow stackVa).1 (.inr rfl), hidx]
    exact F.byte

end Family

/-- **A child calls `execve`**: pages that its parent maps are given back. -/
theorem execve_frees_shared_page : ∃ t u c d l g,
    run (step 0) ⟨emptyKern, noFiles, []⟩ [.create noProgram newTask, .fork 0 newTask] = .ok t ∧ t.tasks = [c, d] ∧
    t.step 0 (.execve 1 shEnv stackVa.1) = .ok u ∧ u.kern.pmm.freed = l ++ t.kern.pmm.freed ∧ g ∈ l ∧
    g ∈ t.pages c := by
  obtain ⟨s, c, hcreate, F⟩ := created_step
  obtain ⟨t, d, hfork, C⟩ := F.forked
  have hd : t.tasks[1]? = some d := by rw [C.tasks]; rfl
  have hidx : pageIdx d.cr3 = frame d.cr3 := C.good.addrs d (List.mem_of_getElem? hd)
  have L : Live t.fs (t.kern.vmmSwitch d.cr3) [pageIdx d.cr3] := by
    have L2 := C.good.live.switch d.cr3
    rw [C.tasks] at L2
    rw [hidx]
    exact (L2.sublist (sublist_cons_self _ _)).live
  obtain ⟨e, l, hexec, -, -, hl, hmem⟩ := execve_ok (s := ⟨t.kern.vmmSwitch d.cr3, t.fs, d⟩) L C.byte C.free
  obtain ⟨entry, hw, -⟩ := F.page
  have hg : frame entry ∈ t.pages c := by
    rw [C.shared]
    exact Kern.frame_mem_frames (p := (0, entry)) stackVa.lower hw
  have hgd : frame entry ∈ t.pages d := by
    rw [C.pages]
    exact hg
  refine ⟨t, ⟨e.kern, e.fs, t.tasks.set 1 e.task⟩, c, d, l, frame entry, ?_, C.tasks, ?_, hl,
    (hmem _).2 (.inr ⟨?_, ?_⟩), hg⟩
  · exact run_cons_ok.2 ⟨s, hcreate, run_cons_ok.2 ⟨t, hfork, rfl⟩⟩
  · simp only [step, hd, hexec, ok_bind, pure_eq_ok]
  · rw [hidx]
    exact hgd
  · exact C.lone _ hgd

/-- a process calls `execve` before it shares any page -/
theorem execve_alone : ∃ t, Steps (fun s o t => Safe s o ∧ s.step 0 o = .ok t) ⟨emptyKern, noFiles, []⟩
    [.create noProgram newTask, .execve 0 shEnv stackVa.1] t ∧ MappedUsed t := by
  obtain ⟨s, c, hcreate, F⟩ := created_step
  have hidx : pageIdx c.cr3 = frame c.cr3 := F.good.addrs c (List.mem_of_getElem? F.mem)
  have L : Live s.fs (s.kern.vmmSwitch c.cr3) [pageIdx c.cr3] := by
    rw [hidx]
    exact F.live.switch _
  have hroom : 256 ≤ s.kern.pmm.freeSet.card := le_trans (by decide) F.free
  obtain ⟨e, l, hexec, -⟩ := execve_ok (s := ⟨s.kern.vmmSwitch c.cr3, s.fs, c⟩) L F.byte hroom
  have hstep : s.step 0 (.execve 0 shEnv stackVa.1) = .ok ⟨e.kern, e.fs, s.tasks.set 0 e.task⟩ := by
    simp only [step, F.mem, hexec, ok_bind, pure_eq_ok]
  have hsafe : Safe s (.execve 0 shEnv stackVa.1) := by
    intro c' hc'
    rw [F.mem, Option.some.injEq] at hc'
    subst hc'
    refine fun img s' hfound => ⟨?_, fun q c'' hq hc'' => ?_⟩
    on_goal 2 =>
      rw [F.tasks, List.getElem?_eq_none (by rw [List.length_singleton]; omega)] at hc''
      cases hc''
    · obtain ⟨hcopy, hfind⟩ := sh_found (s := ⟨s.kern.vmmSwitch c.cr3, s.fs, c⟩) F.byte
      obtain ⟨fromDisk, hfind'⟩ := (Exec.found_iff hcopy).1 hfound
      rw [hfind, Except.ok.injEq, Prod.mk.injEq, Option.some.injEq, Prod.mk.injEq] at hfind'
      rw [← hfind'.1.1]
      refine ⟨fun eh heh => ?_, by decide⟩
      rw [show Elf.header noProgram = .ok none by decide] at heh
      cases heh
  have hrun : Steps (fun s o t => Safe s o ∧ s.step 0 o = .ok t) ⟨emptyKern, noFiles, []⟩
      [.create noProgram newTask, .execve 0 shEnv stackVa.1] _ :=
        .cons ⟨noProgram_safe, hcreate⟩ (.cons ⟨hsafe, hstep⟩ (.nil _))
  exact ⟨_, hrun, (mapped_pages_stay_used 0 emptyKern noFiles _ _ emptyKern_ok (by decide) (noFiles_held _) hrun).1⟩

end Tasks

end Uix
