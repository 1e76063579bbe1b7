/-
A failed `execve`. `do_execve` gives the caller's space back before it looks at the image, so an ELF image that
`elf_load` refuses makes it return -8 to a program whose memory is gone. All other failures come before that and leave
the caller as it was.

- `loadImage_refused`: the second failure is an ELF image that is refused.
- `failed_execve_intact`: the caller is intact unless there is an ELF image; an image refused at its header loses every
  byte of the caller.
- `bad_elf_loses_memory`: a file of four bytes, 0x7F 'E' 0 0.
-/
import Uix.Cpu.ExecSpec

namespace Uix.Exec

open Machine Radix Radix.Format List
open Pmm (pageIdx pageAddr)

/-- the caller runs on its own space, which is in order -/
structure Caller (s : ExecState) : Prop where
  live : Live s.fs s.kern [pageIdx s.task.cr3]
  cr3 : s.kern.cr3 = s.task.cr3
  aligned : frame s.task.cr3 = pageIdx s.task.cr3

/-- the task with its kernel stack, the active space and what the program reads are as before -/
structure Intact (s s' : ExecState) : Prop where
  task : s'.task = s.task
  active : s'.kern.cr3 = s.kern.cr3 ∧ s'.kern.pml4 = s.kern.pml4
  bytes : ∀ va : UserAddr, userByte s'.kern.mem (frame s'.kern.cr3) va.1 = userByte s.kern.mem (frame s.kern.cr3) va.1

/-- the program is an ELF image: if the call fails, `elf_load` has refused it -/
def Refused (env : ExecEnv) (upath : U64) (s : ExecState) : Prop :=
  ∃ img s', Found env upath s img s' ∧ isElf img = .ok true

/-- ... for its header -/
def RefusedHeader (env : ExecEnv) (upath : U64) (s : ExecState) : Prop :=
  ∃ img s', Found env upath s img s' ∧ isElf img = .ok true ∧ Elf.header img = .ok none

section Failure

variable {env : ExecEnv} {upath : U64} {s s' : ExecState} {img : Image} {k k' : Kern} {path : List (BitVec 8)}

theorem loadImage_refused (h : loadImage img path k = .ok (none, k')) :
    isElf img = .ok true ∧ ∃ l, Elf.elfLoad img k = .ok (0, l) ∧ k' = l.kern := by
  obtain ⟨elf, helf, h⟩ := bind_ok.1 h
  cases elf with
  | true =>
    obtain ⟨⟨entry, l⟩, hload, h⟩ := bind_ok.1 h
    dsimp only at h
    split_ifs at h with h0
    · subst h0
      rw [pure_ok, Prod.mk.injEq] at h
      exact ⟨helf, l, hload, h.2.symm⟩
    · obtain ⟨k1, -, h⟩ := bind_ok.1 h
      obtain ⟨⟨rsp, k2⟩, -, h⟩ := bind_ok.1 h
      cases h
  | false =>
    obtain ⟨k1, -, h⟩ := bind_ok.1 h
    obtain ⟨k2, -, h⟩ := bind_ok.1 h
    cases h

/-- the two ways to fail: no program, or one that is refused -/
theorem doExecve_failed {trampoline : U64} {r : ℤ} {printed : List (BitVec 8)}
    (h : doExecve env trampoline upath s = .ok (.failed r printed, s')) :
    (∃ copied, copyPath s.kern 63 upath = .ok copied ∧
      findProgram env (pathString env.stale copied) s = .ok (none, s')) ∨
    ∃ img s1 s2 l, Found env upath s img s1 ∧ isElf img = .ok true ∧ newSpace s1 = .ok s2 ∧
      Elf.elfLoad img s2.kern = .ok (0, l) ∧ s' = { s2 with kern := l.kern } := by
  obtain ⟨copied, hcopy, h⟩ := bind_ok.1 h
  obtain ⟨⟨o, s1⟩, hfind, h⟩ := bind_ok.1 h
  cases o with
  | none =>
    simp only [pure_ok, Prod.mk.injEq] at h
    exact .inl ⟨copied, hcopy, h.2 ▸ hfind⟩
  | some p =>
    obtain ⟨img, fromDisk⟩ := p
    obtain ⟨s2, hnew, h⟩ := bind_ok.1 h
    obtain ⟨⟨o, k2⟩, hload, h⟩ := bind_ok.1 h
    cases o with
    | none =>
      simp only [pure_ok, Prod.mk.injEq] at h
      obtain ⟨helf, l, hl, rfl⟩ := loadImage_refused hload
      exact .inr ⟨img, s1, s2, l, ⟨copied, fromDisk, hcopy, hfind⟩, helf, hnew, hl, h.2.symm⟩
    | some q =>
      cases fromDisk with
      | true =>
        obtain ⟨⟨fs, k3⟩, -, h⟩ := bind_ok.1 h
        cases h
      | false => cases h

theorem Caller.found (h : Caller s) {o : Option (Image × Bool)} (hfind : findProgram env path s = .ok (o, s')) :
    Caller s' ∧ Intact s s' := by
  obtain ⟨o', s'', hrun, htask, B⟩ := @findProgram_spec env path s h.live.held h.live.spaces.trees.pmm
  obtain ⟨-, rfl⟩ : o' = o ∧ s'' = s' := by
    rw [hfind] at hrun
    simpa [eq_comm] using hrun
  obtain ⟨hpml4, hcr3, -⟩ := B.regs
  refine ⟨⟨?_, ?_, ?_⟩, htask, ⟨hcr3, hpml4⟩, fun va => ?_⟩
  · rw [htask]
    exact (h.live.buffered B).live
  · rw [hcr3, htask, h.cr3]
  · rw [htask, h.aligned]
  · rw [hcr3, h.cr3, h.aligned]
    exact h.live.buffered_view B (mem_singleton_self _) va

theorem Caller.cr3_ne_zero (h : Caller s) : s.task.cr3 ≠ 0 := by
  intro hc
  refine (h.live.tables _ (root_mem_forest (mem_singleton_self _))).1 ?_
  rw [hc]
  rfl

/-- what `do_execve` returns after the load of the image -/
def outcome (path : List (BitVec 8)) : Option (U64 × U64) → ExecResult
  | none => .failed (-8) (complaint "bad ELF" path)
  | some (entry, rsp) => .launched entry rsp

/-- **From the program on**, `do_execve` stops only where the load of the image does, if the file buffer is still
there. -/
theorem Caller.loaded {fromDisk : Bool} {copied : List (BitVec 8)} {trampoline : U64} (h : Caller s)
    (hcopy : copyPath s.kern 63 upath = .ok copied)
    (hfind : findProgram env (pathString env.stale copied) s = .ok (some (img, fromDisk), s')) :
    ∃ s2, newSpace s' = .ok s2 ∧ NewSpace s' s2 [] s2.kern.pml4 ∧
      (∀ e, loadImage img (pathString env.stale copied) s2.kern = .error e →
      doExecve env trampoline upath s = .error e) ∧
      ∀ o k, loadImage img (pathString env.stale copied) s2.kern = .ok (o, k) → s2.fs.Held k → k.pmm.Ok →
        ∃ t, doExecve env trampoline upath s = .ok (outcome (pathString env.stale copied) o, t) ∧ t.kern.mem = k.mem ∧
          t.task.cr3 = s2.task.cr3 := by
  have h1 := (h.found hfind).1
  obtain ⟨s2, d, hnew, N⟩ := newSpace_spec h1.live h1.cr3_ne_zero fun r hr => absurd hr not_mem_nil
  refine ⟨s2, hnew, N.root ▸ N, fun e hload => ?_, fun o k hload hheld hk => ?_⟩
  · unfold doExecve
    simp only [hcopy, hfind, hnew, hload, ok_bind]
    rfl
  · obtain ⟨p, n, hfree, -⟩ := Uixfs.fileBufFree_spec hheld hk
    unfold doExecve
    simp only [hcopy, hfind, hnew, hload, ok_bind]
    cases o with
    | none => exact ⟨_, rfl, rfl, rfl⟩
    | some q =>
      cases fromDisk with
      | false => exact ⟨_, rfl, rfl, rfl⟩
      | true =>
        simp only [if_true, hfree, ok_bind]
        exact ⟨_, rfl, rfl, rfl⟩

/-- ... and for an image in the user half it is -/
theorem NewSpace.held {s2 : ExecState} {path : List (BitVec 8)} {o : Option (U64 × U64)} {k : Kern} {d : ℕ}
    (N : NewSpace s s2 [] d) (himg : UserImage img) (hpath : path.length ≤ 63)
    (hload : loadImage img path s2.kern = .ok (o, k)) : s2.fs.Held k ∧ k.pmm.Ok := by
  obtain ⟨S, F⟩ := (loadImage_filling himg hpath N.fresh).of_eq hload
  have hlive := N.lives.live
  rw [← N.root, ← N.fs] at hlive
  have L := (hlive.filled F).live
  exact ⟨L.held, L.spaces.trees.pmm⟩

/-- nothing can be read in the new space -/
theorem Caller.empty (h : Caller s) (hnew : newSpace s = .ok s') (va : UserAddr) :
    userByte s'.kern.mem (frame s'.kern.cr3) va.1 = none := by
  obtain ⟨s'', d, hrun, N⟩ := newSpace_spec h.live h.cr3_ne_zero fun r hr => absurd hr not_mem_nil
  obtain rfl : s'' = s' := Except.ok.inj (hrun.symm.trans hnew)
  refine userByte_absent ?_
  rw [N.fresh.cr3]
  exact walk_absent (show paging.present _ = false by rw [N.fresh.lower _ va.lower, paging_present, zero_has])

end Failure

/-- **A failed execve.** It leaves the caller intact unless the program found is an ELF image. If
the image is refused at its header, a caller with any memory is not left intact. -/
theorem failed_execve_intact (env : ExecEnv) (trampoline upath : U64) (s s' : ExecState) (r : ℤ)
    (printed : List (BitVec 8)) (h : Caller s) (hrun : doExecve env trampoline upath s = .ok (.failed r printed, s')) :
    (¬ Refused env upath s → Intact s s') ∧
      (RefusedHeader env upath s → (∃ va : UserAddr, userByte s.kern.mem (frame s.kern.cr3) va.1 ≠ none) →
      ¬ Intact s s') := by
  constructor
  · intro hnot
    rcases doExecve_failed hrun with ⟨copied, -, hfind⟩ | ⟨img, s1, s2, l, hfound, helf, -, -, -⟩
    · exact (h.found hfind).2
    · exact absurd ⟨img, s1, hfound, helf⟩ hnot
  · rintro ⟨img, s1, hfound, -, hheader⟩ ⟨va, hva⟩ hintact
    rcases doExecve_failed hrun with ⟨copied, hcopy, hnone⟩ |
      ⟨img', s1', s2, l, ⟨copied, fromDisk, hcopy, hfind⟩, -, hnew, hload, rfl⟩
    · obtain ⟨fromDisk, hfind⟩ := (found_iff hcopy).1 hfound
      rw [hfind] at hnone
      cases hnone
    · obtain ⟨fromDisk', hfind'⟩ := (found_iff hcopy).1 hfound
      rw [hfind] at hfind'
      cases hfind'
      -- nothing was loaded
      obtain rfl : l = ⟨s2.kern, []⟩ := by
        rw [Elf.elfLoad, hheader, ok_bind] at hload
        cases hload
        rfl
      have hbyte := hintact.bytes va
      rw [show userByte s2.kern.mem (frame s2.kern.cr3) va.1 = none from (h.found hfind).1.empty hnew va] at hbyte
      exact hva hbyte.symm

/-! ## A file of four bytes -/

/-- one user page, at address 0: the PML4 in page 1, three tables, and the page, with the string `f` in it -/
def pageMem : PhysMem := fun f i =>
  if i = 0 then
    if f = 1 then 0x2007#64 else if f = 2 then 0x3007#64 else if f = 3 then 0x4007#64 else if f = 4 then 0x5007#64 else
    if f = 5 then 0x66#64 else 0
  else 0

def pageKern : Kern := ⟨pageMem, Pmm.fresh 64 6 (some fun _ => 0), 1, pageAddr 1, pageAddr 1⟩

/-- the file `f` of four bytes -/
def oneFile : Uixfs where
  entries x := if x = 0 then 0x66#8 else if x = 24 then 4#8 else if x = 28 then 5#8 else 0
  nfiles := 1
  mounted := true
  sector _ := 0
  fileBuf := none
  fileBufPages := 0

/-- every sector starts with 0x7F 'E' 0 0 -/
def badElfEnv : ExecEnv where
  sh := ⟨0, fun _ => none⟩
  hello2 := ⟨0, fun _ => none⟩
  disk _ := some fun x => if x = 0 then 0x7F#8 else if x = 1 then 0x45#8 else 0
  stray _ := none
  stale _ := 0

def pageState : ExecState := ⟨pageKern, oneFile, ⟨pageAddr 1, 0, 0xFFFFFFFF90000000#64, 16384, fun _ => 0⟩⟩

theorem pageMem_gather {β : Type} (leaf : ℕ → U64 → List β) (node : U64 → List β) :
    lowerHalf.flatMap (paging.gather leaf node pageMem 3 1) =
      node 0x2007 ++ (node 0x3007 ++ (node 0x4007 ++ leaf 0 0x5007)) := by
  have habs : ∀ f (j : Fin 512), j ≠ 0 → paging.present (pageMem f j) = false := fun f j hj => by
    rw [pageMem, if_neg hj, paging_present, zero_has]
  have hone : ∀ l f, (finRange 512).flatMap (paging.gather leaf node pageMem l f) =
      paging.gather leaf node pageMem l f 0 := fun l f =>
    gather_single (mem_finRange 0) (nodup_finRange 512) (habs f)
  have hlink : ∀ l f, paging.link l (pageMem f 0) = true →
      paging.gather leaf node pageMem (l + 1) f 0 =
        node (pageMem f 0) ++ paging.gather leaf node pageMem l (frame (pageMem f 0)) 0 := fun l f h => by
    rw [gather_link h, hone]
    rfl
  rw [gather_single (Kern.mem_lowerHalf.2 (by decide)) Kern.lowerHalf_nodup (habs 1), hlink 2 1 (by decide),
    hlink 1 _ (by decide), hlink 0 _ (by decide)]
  rfl

/-- the space is in order whatever the allocator holds beyond its pages -/
theorem pageMem_caller {p : Pmm} {fs : Uixfs} {t : ExecTask} (hp : p.Ok) (hlen : 6 ≤ p.bitmapLen ∧ p.bitmapLen ≤ 2 ^ 40)
    (hused : ∀ g < 6, g ∉ p.freeSet) (hbuf : fs.fileBuf = none) (hcr3 : t.cr3 = pageAddr 1) :
    Caller ⟨⟨pageMem, p, 1, pageAddr 1, pageAddr 1⟩, fs, t⟩ := by
  have hidx : pageIdx t.cr3 = 1 := by
    rw [hcr3]
    decide
  have htables : paging.tables pageMem 3 1 lowerHalf = [1, 2, 3, 4] := congrArg (1 :: ·) (pageMem_gather _ _)
  have hleaves : paging.leaves pageMem 3 1 lowerHalf = [(0, 0x5007#64)] := pageMem_gather _ _
  have hlinks : paging.links pageMem 3 1 lowerHalf = [0x2007#64, 0x3007#64, 0x4007#64] := pageMem_gather _ _
  have hframes : Kern.frames pageMem 1 = [5] := by rw [Kern.frames, hleaves]; rfl
  have hforest : paging.forest pageMem 3 [1] lowerHalf = [1, 2, 3, 4] := by
    rw [Format.forest, flatMap_singleton, htables]
  have hsmall : ∀ g ∈ [1, 2, 3, 4], g < 6 := by decide
  have hspaces : Kern.Spaces ⟨pageMem, p, 1, pageAddr 1, pageAddr 1⟩ [1] := by
    refine ⟨⟨hp, hlen.2, ?_, ?_, ?_⟩, ?_, ?_, ?_, ?_, ?_, ?_, ?_⟩
    · rw [hforest]
      decide
    · rw [hforest]
      exact fun g hg => (hsmall g hg).trans_le hlen.1
    · rw [hforest]
      exact fun g hg => hused g (hsmall g hg)
    · rw [forall_mem_singleton, hleaves]
      decide
    · rw [forall_mem_singleton, hlinks]
      refine forall_mem_cons.2 ⟨?_, forall_mem_cons.2 ⟨?_, forall_mem_singleton.2 ?_⟩⟩ <;>
        exact ⟨by decide, by decide, by decide⟩
    · rw [forall_mem_singleton, hframes, forall_mem_singleton]
      exact hlen.1
    · rw [forall_mem_singleton, hframes, forall_mem_singleton]
      exact hused 5 (by decide)
    · rw [forall_mem_singleton, hframes, hforest]
      decide
    · rw [forall_mem_singleton, hframes]
      decide
    · intro r hr r' hr' hne
      exact absurd ((mem_singleton.1 hr).trans (mem_singleton.1 hr').symm) hne
  have hbufs : fs.bufPages = [] := by rw [Uixfs.bufPages, hbuf]
  refine ⟨⟨?_, ?_, ?_, ?_⟩, hcr3.symm, ?_⟩
  · exact hidx.symm ▸ hspaces
  · refine ⟨fun pa hpa => ?_, fun j hj => ?_, fun j hj => ?_⟩
    · rw [hbuf] at hpa
      cases hpa
    · rw [hbufs] at hj
      exact absurd hj not_mem_nil
    · rw [hbufs] at hj
      exact absurd hj not_mem_nil
  · rw [hidx, hforest, hbufs]
    decide
  · rw [hidx, forall_mem_singleton, hframes, hbufs]
    decide
  · rw [hcr3]
    decide

theorem pageState_caller : Caller pageState := by
  refine pageMem_caller (Pmm.fresh_ok _ (by decide) (by decide) (by decide) (by decide)) (by decide)
    (fun g hg hc => ?_) rfl rfl
  rw [Pmm.freeSet_fresh _ _ (by decide), Finset.mem_Ico] at hc
  omega

/-- what is seen of a call that fails: the number, and the byte at address 0 afterwards -/
def seen (env : ExecEnv) (upath : U64) : Option (ℤ × Option (BitVec 8)) :=
  match doExecve env 0 upath pageState with
  | .ok (.failed r _, s) => some (r, userByte s.kern.mem (frame s.kern.cr3) 0)
  | _ => none

theorem seen_ok {env : ExecEnv} {upath : U64} {r : ℤ} {b : Option (BitVec 8)} (h : seen env upath = some (r, b)) :
    ∃ printed s, doExecve env 0 upath pageState = .ok (.failed r printed, s) ∧
      userByte s.kern.mem (frame s.kern.cr3) 0 = b := by
  unfold seen at h
  split at h
  next r' printed s hrun =>
    rw [Option.some.injEq, Prod.mk.injEq] at h
    exact ⟨printed, s, h.1 ▸ hrun, h.2⟩
  next => cases h

/-- **A file that only looks like an ELF image**: `execve` returns -8, and the program's page is gone. -/
theorem bad_elf_loses_memory : ∃ env upath s printed s', Caller s ∧
    doExecve env 0 upath s = .ok (.failed (-8) printed, s') ∧
    userByte s.kern.mem (frame s.kern.cr3) 0 = some 0x66 ∧ userByte s'.kern.mem (frame s'.kern.cr3) 0 = none := by
  obtain ⟨printed, s', hrun, hbyte⟩ := seen_ok (show seen badElfEnv 0 = some (-8, none) by decide +kernel)
  exact ⟨badElfEnv, 0, pageState, printed, s', pageState_caller, hrun, by decide, hbyte⟩

/-- a path that names no file: the page is still there -/
theorem no_such_file_intact : ∃ printed s', doExecve badElfEnv 0 1 pageState = .ok (.failed (-2) printed, s') ∧
    Intact pageState s' := by
  obtain ⟨printed, s', hrun, -⟩ := seen_ok (show seen badElfEnv 1 = some (-2, some 0x66) by decide +kernel)
  refine ⟨printed, s', hrun, (failed_execve_intact badElfEnv 0 1 pageState s' (-2) printed pageState_caller hrun).1 ?_⟩
  rintro ⟨img, s1, hfound, -⟩
  obtain ⟨fromDisk, hfind⟩ := (found_iff (show copyPath pageState.kern 63 1 = .ok [] by decide +kernel)).1 hfound
  have hnone : (findProgram badElfEnv (pathString badElfEnv.stale []) pageState).map (fun p => p.1.isSome) =
      .ok false := by
    decide +kernel
  rw [hfind] at hnone
  cases hnone

end Uix.Exec
