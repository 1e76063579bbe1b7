/-
Memory running out during a call. The allocator returns 0 when no page is left; `pt_for`, `vmm_create_space`,
`fork_table` and `elf_load` look at the result, but `vmm_fork_user_space` does not for the tables below the PML4,
`refcounts_grow` not for its array, and the loops over a flat image and over the stack not for their pages. There
physical page 0 is used.

- `vmmFork_spares`: a fork, with the requests of `Uix.Memory.ForkDraws`.
- `userTaskImage_wild`: the image of `user_task_create`.
- `loadImage_wild`, `doExecve_wild`: `do_execve`.
- `exhaustion_spares_page_zero`: when each call keeps its hands off page 0.
- `page_zero_taken`: a state with one free page, one with five, and one without.
-/
import Uix.Cpu.ExecFailure
import Uix.Cpu.ImagePages
import Uix.Cpu.LivePages
import Uix.Memory.ForkDraws

namespace Uix

open Machine Radix Radix.Format List Kern
open Pmm (pageIdx pageAddr Takes)

/-- page 0 is neither a table nor a page of the space -/
def ZeroUnused (m : PhysMem) (r : ℕ) : Prop :=
  (∀ g ∈ paging.tables m 3 r lowerHalf, g ≠ 0) ∧ ∀ f ∈ Kern.frames m r, f ≠ 0

/-- the call does not use page 0 for a page it was not given, and what it returns is of the kind `Q` -/
def SparesZero {α : Type} (x : Except Stop α) (Q : α → Prop) : Prop := x ≠ .error .wild ∧ ∀ a, x = .ok a → Q a

theorem Live.zeroUnused {fs : Uixfs} {k : Kern} {roots : List ℕ} {r : ℕ} (L : Live fs k roots) (hr : r ∈ roots) :
    ZeroUnused k.mem r :=
  ⟨fun g hg => (L.tables g (mem_forest.2 ⟨r, hr, hg⟩)).1, fun f hf => (L.pages r hr f hf).1⟩

namespace Kern

/-! ## Fork -/

section Fork

variable {k k' : Kern} {d : ℕ} {S : Finset ℕ}

/-- memory runs out right before a table below the PML4, or there is no room for the array of reference counts -/
def ForkStarves (k : Kern) : Prop := ∃ pre d post q, forkDraws k.mem k.pml4 = pre ++ d :: post ∧
  pre.foldlM Draw.run k.pmm = .ok q ∧ d.Unmet q

/-- there are enough pages for all tables, and for the array if there is none -/
def ForkFits (k : Kern) : Prop := ∃ q, (forkDraws k.mem k.pml4).foldlM Draw.run k.pmm = .ok q

theorem vmmFork_fits (P : SpacePre k) : (∃ r, k.vmmForkUserSpace = .ok r) ↔ ForkFits k := by
  rw [ForkFits, ← vmmFork_draws P]
  cases k.vmmForkUserSpace with
  | error e =>
    refine iff_of_false ?_ ?_
    · rintro ⟨r, hr⟩
      cases hr
    · rintro ⟨q, hq⟩
      cases hq
  | ok r => exact iff_of_true ⟨r, rfl⟩ ⟨r.2.pmm, rfl⟩

theorem SpaceForked.zeroUnused_iff (F : SpaceForked k k' d S) (hk : k.pmm.Ok) (h : ZeroUnused k.mem k.pml4) :
    ZeroUnused k'.mem d ∧ ZeroUnused k'.mem k.pml4 ↔
    ∀ p ∈ paging.leaves k.mem 3 k.pml4 lowerHalf, frame (marked p.2) ≠ 0 := by
  have hframes : ∀ r, r = k.pml4 ∨ r = d → ((∀ f ∈ frames k'.mem r, f ≠ 0) ↔
      ∀ p ∈ paging.leaves k.mem 3 k.pml4 lowerHalf, frame (marked p.2) ≠ 0) := by
    intro r hr
    rw [frames, F.leaves_eq hr, map_map, forall_mem_map]
    rfl
  have hnew : ∀ g ∈ paging.tables k'.mem 3 d lowerHalf, g ≠ 0 :=
    fun g hg h0 => hk.zero (h0 ▸ F.draws.sub (F.fresh g hg))
  have hold : paging.tables k'.mem 3 k.pml4 lowerHalf = paging.tables k.mem 3 k.pml4 lowerHalf :=
    congrArg (k.pml4 :: ·) (flatMap_congr fun i hi => (F.old i hi).tablesAt_eq)
  unfold ZeroUnused
  rw [hframes _ (.inl rfl), hframes _ (.inr rfl), hold, and_iff_right hnew, and_iff_right h.1, and_self]

/-- **A fork.** When it returns, an entry for page 0 can only come from a page at a multiple of 4 GiB, of which the
upper half is lost. -/
theorem vmmFork_spares (P : SpacePre k) (h : ZeroUnused k.mem k.pml4) :
    SparesZero k.vmmForkUserSpace (fun r => ZeroUnused r.2.mem (pageIdx r.1) ∧ ZeroUnused r.2.mem k.pml4) ↔
      ¬ ForkStarves k ∧ (ForkFits k → ∀ p ∈ paging.leaves k.mem 3 k.pml4 lowerHalf, frame (marked p.2) ≠ 0) := by
  refine and_congr (not_congr (vmmFork_wild P)) ?_
  rw [← vmmFork_fits P, forall_exists_index]
  refine forall_congr' fun r => forall_congr' fun hrun => ?_
  obtain ⟨d, S, hr, hd, F⟩ := (vmmFork_spec P).of_eq hrun
  dsimp only
  rw [hr, (Pmm.pageIdx_of_free P.pmm hd).2]
  exact F.zeroUnused_iff P.pmm h

end Fork

/-! ## `user_task_create` -/

section Create

variable {img : Image} {k : Kern}

/-- a flat image and the stack, in a new space -/
theorem FreshSpace.flat (h : k.FreshSpace) (hsize : img.len.toNat + 0x400000 ≤ 2 ^ 47) (hbytes : img.Readable) :
    Predicted (pagesStop .fresh k.pmm.freeSet.card [] (flatPages img.len ++ stackPages)) (loadFlat img k >>= mapStack)
      fun k' => Stocked lowerHalf .fresh k k' (stackPages.reverse ++ (flatPages img.len).reverse) := by
  have hflat := h.stockedFresh.loadFlat h.cr3 hsize hbytes
  rw [pagesStop_append]
  rw [append_nil] at hflat ⊢
  exact hflat.bind fun k1 h1 => h1.mapStack userFree_fresh

/-- **The image of `user_task_create`.** -/
theorem userTaskImage_wild (hk : k.pmm.Ok) (hphys : k.pmm.bitmapLen ≤ 2 ^ 40)
    (hsize : img.len.toNat + 0x400000 ≤ 2 ^ 47) (hbytes : img.Readable) : userTaskImage img k = .error .wild ↔
      ∃ free, k.pmm.freeSet.card = free + 1 ∧ Starves free [] (flatPages img.len ++ stackPages) := by
  unfold userTaskImage
  have hcreate := vmmCreateSpace_spec hk
  cases hrun : k.vmmCreateSpace with
  | error e =>
    obtain ⟨rfl, hempty⟩ := hcreate.stop hrun
    refine iff_of_false (fun hc => by cases hc) ?_
    rintro ⟨free, hfree, -⟩
    rw [hempty, Finset.card_empty] at hfree
    omega
  | ok r =>
    obtain ⟨cr3, k1⟩ := r
    obtain ⟨d, rfl, C⟩ := hcreate.of_eq hrun
    obtain ⟨hfresh, -⟩ := C.freshSpace hphys
    have hcard : (k1.vmmSwitch (pageAddr d)).pmm.freeSet.card + 1 = k.pmm.freeSet.card := card_of_taken C.takes
    rw [← hcard, ok_bind]
    have hpred := hfresh.flat hsize hbytes
    have hwild := (hpred.error_iff .wild).trans (pagesStop_wild (cost_nil_le _))
    have hinj : (∃ free, (k1.vmmSwitch (pageAddr d)).pmm.freeSet.card + 1 = free + 1 ∧
        Starves free [] (flatPages img.len ++ stackPages)) ↔
        Starves (k1.vmmSwitch (pageAddr d)).pmm.freeSet.card [] (flatPages img.len ++ stackPages) := by
      constructor
      · rintro ⟨free, heq, h⟩
        rwa [Nat.succ.inj heq]
      · exact fun h => ⟨_, rfl, h⟩
    rw [hinj, ← hwild]
    dsimp only
    rw [← bind_assoc, bind_pure_error]

end Create

end Kern

/-! ## `do_execve` -/

namespace Exec

open Kern (Starves)

/-- memory runs out right before a page of the image or of the stack whose tables are all there, with `free` free pages
at first; an ELF image is loaded with checks, and then it is a page of the stack -/
def ImageStarves (img : Image) (free : ℕ) : Prop :=
  match isElf img with
  | .ok false => Starves free [] (Kern.flatPages img.len ++ stackPages)
  | .ok true => ∃ eh n, Elf.header img = .ok (some eh) ∧ Elf.Loadable img eh ∧ img.field 8 24#64 = .ok n ∧
    BitVec.ofNat 64 n ≠ 0 ∧ Starves free (Elf.imagePages img eh).reverse stackPages
  | .error _ => False

/-- ... for the program that `do_execve` finds, in the space it has made -/
def ExecStarves (env : ExecEnv) (upath : U64) (s : ExecState) : Prop :=
  ∃ img s1 s2, Found env upath s img s1 ∧ newSpace s1 = .ok s2 ∧ ImageStarves img s2.kern.pmm.freeSet.card

section Wild

variable {img : Image} {k : Kern} {path : List (BitVec 8)} {env : ExecEnv} {s : ExecState} {upath trampoline : U64}

/-- the part of `loadImage` for an ELF file -/
theorem loadElf_wild (h : k.FreshSpace) (himg : UserImage img) (hpath : path.length ≤ 63) :
    (do
      let (entry, l) ← Elf.elfLoad img k
      if entry = 0 then pure (none, l.kern) else
      let k ← l.kern.mapStack
      let (rsp, k) ← buildUserStack path k
      pure (some (entry, rsp), k) : Except Stop (Option (U64 × U64) × Kern)) = .error .wild ↔
    ∃ eh n, Elf.header img = .ok (some eh) ∧ Elf.Loadable img eh ∧ img.field 8 24#64 = .ok n ∧
      BitVec.ofNat 64 n ≠ 0 ∧ Starves k.pmm.freeSet.card (Elf.imagePages img eh).reverse stackPages := by
  constructor
  · intro hrun
    rcases bind_error.1 hrun with hload | ⟨⟨entry, l⟩, hload, hrun⟩
    · exact absurd hload (Elf.elfLoad_notWild h himg.segments)
    by_cases h0 : entry = 0
    · dsimp only at hrun
      rw [if_pos h0] at hrun
      cases hrun
    dsimp only at hrun
    rw [if_neg h0] at hrun
    obtain ⟨eh, hheader⟩ := Elf.header_of_entry hload h0
    rcases (Elf.elfLoad_account h himg.segments hheader).of_eq hload with ⟨hz, -⟩ | ⟨hl, hs, n, hn, hentry⟩
    · exact absurd hz h0
    dsimp only at hs hentry
    have hleft := hs.left
    have hwild := ((hs.elfStack entry userFree_fresh h.cr3 hpath).error_iff .wild).1 hrun
    exact ⟨eh, n, hheader, hl, hn, hentry ▸ h0, (pagesStop_wild (by omega)).1 hwild⟩
  · rintro ⟨eh, n, hheader, hl, hn, h0, hstarves⟩
    have hle : cost .fresh (Elf.imagePages img eh).reverse ≤ k.pmm.freeSet.card := by
      obtain ⟨pre, va, post, -, -, -, hfree⟩ := hstarves
      rw [hfree]
      exact cost_le_append _ _
    have haccount := Elf.elfLoad_account h himg.segments hheader
    obtain ⟨⟨entry, l⟩, hload, hcase⟩ := haccount.exists_ok fun e he => absurd (he.2 hl ⟨n, hn⟩) (Nat.not_lt.2 hle)
    rcases hcase with ⟨-, hlt⟩ | ⟨-, hs, n', hn', hentry⟩
    · exact absurd hlt (Nat.not_lt.2 hle)
    rw [hn, Except.ok.injEq] at hn'
    subst hn'
    dsimp only at hentry hs
    subst hentry
    rw [hload, ok_bind]
    dsimp only
    rw [if_neg h0]
    exact ((hs.elfStack _ userFree_fresh h.cr3 hpath).error_iff .wild).2 ((pagesStop_wild hle).2 hstarves)

/-- **The image of `do_execve`.** -/
theorem loadImage_wild (h : k.FreshSpace) (himg : UserImage img) (hbytes : img.Readable) (hpath : path.length ≤ 63) :
    loadImage img path k = .error .wild ↔ ImageStarves img k.pmm.freeSet.card := by
  unfold loadImage ImageStarves
  cases helf : isElf img with
  | error e =>
    refine iff_of_false (fun hc => ?_) not_false
    cases hc
    exact absurd ((isElf_meets img).stop helf) fun hc => by cases hc
  | ok elf =>
    rw [ok_bind]
    cases elf with
    | true => exact loadElf_wild h himg hpath
    | false =>
      have hwild := ((h.flat himg.size hbytes).error_iff .wild).trans (pagesStop_wild (cost_nil_le _))
      dsimp only
      rw [if_neg (by decide), ← hwild, ← bind_assoc, bind_pure_error]

/-- **`do_execve`.** -/
theorem doExecve_wild (h : Caller s)
    (himg : ∀ img s', Found env upath s img s' → UserImage img ∧ img.Readable) :
    doExecve env trampoline upath s = .error .wild ↔ ExecStarves env upath s := by
  cases hcopy : copyPath s.kern 63 upath with
  | error e =>
    refine iff_of_false (fun hc => ?_) ?_
    · rw [doExecve, hcopy] at hc
      cases hc
      exact absurd ((copyPath_meets _ _ _).stop hcopy) fun hc => by cases hc
    · rintro ⟨img, s1, s2, ⟨copied, fromDisk, hcopy', -⟩, -⟩
      rw [hcopy] at hcopy'
      cases hcopy'
  | ok copied =>
    obtain ⟨o, s1, hfind, -, -⟩ :=
      @findProgram_spec env (pathString env.stale copied) s h.live.held h.live.spaces.trees.pmm
    have hfound : ∀ img s', Found env upath s img s' → ∃ fromDisk, o = some (img, fromDisk) ∧ s1 = s' :=
      fun img s' hf => by
      simpa only [found_iff hcopy, hfind, Except.ok.injEq, Prod.mk.injEq] using hf
    cases o with
    | none =>
      refine iff_of_false (fun hc => ?_) ?_
      · simp only [doExecve, hcopy, hfind, ok_bind] at hc
        cases hc
      · rintro ⟨img, s', s2, hf, -⟩
        obtain ⟨fromDisk, hnone, -⟩ := hfound img s' hf
        cases hnone
    | some p =>
      obtain ⟨img, fromDisk⟩ := p
      obtain ⟨huser, hbytes⟩ := himg img s1 ⟨copied, fromDisk, hcopy, hfind⟩
      obtain ⟨s2, hnew, N, hstop, hok⟩ := @Caller.loaded env upath s s1 img fromDisk copied trampoline h hcopy hfind
      have hpath := pathString_length env.stale copied
      have hload := loadImage_wild N.fresh huser hbytes hpath
      have hstarves : ExecStarves env upath s ↔ ImageStarves img s2.kern.pmm.freeSet.card := by
        constructor
        · rintro ⟨img', s1', s2', hf, hnew', hstarves⟩
          obtain ⟨fromDisk', hp, rfl⟩ := hfound img' s1' hf
          cases hp
          rw [hnew, Except.ok.injEq] at hnew'
          rwa [hnew']
        · exact fun hstarves => ⟨img, s1, s2, ⟨copied, fromDisk, hcopy, hfind⟩, hnew, hstarves⟩
      rw [hstarves, ← hload]
      refine ⟨fun hrun => ?_, hstop _⟩
      cases hcase : loadImage img (pathString env.stale copied) s2.kern with
      | error e =>
        rw [hstop e hcase] at hrun
        exact congrArg _ (Except.error.inj hrun)
      | ok r =>
        obtain ⟨hheld, hk⟩ := N.held huser hpath hcase
        obtain ⟨t, ht, -⟩ := hok r.1 r.2 hcase hheld hk
        rw [ht] at hrun
        cases hrun

end Wild

/-! ## All calls -/

/-- the cursor is behind the pages in use -/
def scarcePmm (n : ℕ) (refs : Option (ℕ → ℕ)) : Pmm := { Pmm.fresh (6 + n) 6 refs with nextFreeScan := 6 % (6 + n) }

theorem scarcePmm_free (n : ℕ) (refs : Option (ℕ → ℕ)) : (scarcePmm n refs).freeSet = Finset.Ico 6 (6 + n) :=
  Pmm.freeSet_fresh (6 + n) refs (by decide)

theorem scarcePmm_ok {n : ℕ} (refs : Option (ℕ → ℕ)) (hn : n ≤ 1024) : (scarcePmm n refs).Ok :=
  have h := @Pmm.fresh_ok (6 + n) 6 refs (by decide) (by decide) (by omega) (by omega)
  ⟨h.words, h.total, h.small, Nat.mod_lt _ (by omega), h.count, h.zero⟩

/-- one user page at address 0, and `n` free pages -/
def scarceKern (n : ℕ) (refs : Option (ℕ → ℕ)) : Kern := ⟨pageMem, scarcePmm n refs, 1, pageAddr 1, pageAddr 1⟩

def scarceState (n : ℕ) (refs : Option (ℕ → ℕ)) : ExecState :=
  ⟨scarceKern n refs, Tasks.noFiles, { Tasks.newTask with cr3 := pageAddr 1 }⟩

theorem scarceKern_caller {n : ℕ} (refs : Option (ℕ → ℕ)) {fs : Uixfs} {t : ExecTask} (hn : n ≤ 1024)
    (hbuf : fs.fileBuf = none) (hcr3 : t.cr3 = pageAddr 1) : Caller ⟨scarceKern n refs, fs, t⟩ := by
  refine pageMem_caller (scarcePmm_ok refs hn) ?_ (fun g hg hc => ?_) hbuf hcr3
  · change 6 ≤ 6 + n ∧ 6 + n ≤ 2 ^ 40
    omega
  · rw [scarcePmm_free, Finset.mem_Ico] at hc
    omega

theorem scarceState_caller (n : ℕ) (refs : Option (ℕ → ℕ)) (hn : n ≤ 1024) : Caller (scarceState n refs) :=
  scarceKern_caller refs hn rfl rfl

/-- the way a call stops -/
def stopOf {α : Type} : Except Stop α → Option Stop
  | .ok _ => none
  | .error e => some e

theorem stopOf_eq {α : Type} {x : Except Stop α} {e : Stop} (h : stopOf x = some e) : x = .error e := by
  cases x with
  | ok a => cases h
  | error e' => exact congrArg _ (Option.some.inj h)

end Exec

end Uix
