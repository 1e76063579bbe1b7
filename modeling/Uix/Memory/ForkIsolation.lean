/-
Isolation of forked processes. A user address space is built by `vmm_create_space` and `vmm_map` of `pmm_alloc` pages;
then any process forks or writes a byte, in any order. The reference gives each process a private memory, a fork
copies it (`Procs.refStep`).

A write to a copy-on-write page is repaired in place when `pmm_getref` is at most 1. A page starts with the count 0, so
after the first fork it has the count 1 and two owners: the count means "other owners" to `fork_table` and "owners" to
`vmm_page_fault`. Fork also drops the upper half of every leaf it marks.

- `write_spec`: what a write changes, if it does not meet a marked page with the count 1.
- `fork_isolation_when`: in every run without such writes, whose forks meet only pages below 4 GiB, every process reads
  what the reference says.
- `child_write_reaches_parent`: one fork and one write.
-/
import Uix.Memory.PageFault
import Uix.Memory.MapPage
import Uix.Memory.Store

namespace Uix

open Machine Radix Radix.Format Bytes List Function Kern
open Pmm (pageIdx pageAddr Takes Draws)

namespace Kern

/-! ## Writable pages have one owner -/

/-- a page that one space may write is mapped by no other -/
def Guarded (m : PhysMem) (roots : List ℕ) : Prop :=
  ∀ r ∈ roots, ∀ p ∈ paging.leaves m 3 r lowerHalf, has p.2 writeBit = true →
    ∀ r' ∈ roots, r' ≠ r → frame p.2 ∉ frames m r'

section Guarded

variable {k k' : Kern} {roots : List ℕ} {x : ℕ → Fin 512} {r g d : ℕ} {e : U64} {S : Finset ℕ}

theorem Guarded.agree {m m' : PhysMem} (hg : Guarded m roots) (hA : ∀ r ∈ roots, Agree paging m m' 3 r lowerHalf) :
    Guarded m' roots := by
  intro r hr p hp hw r' hr' hne
  rw [(hA r hr).leaves] at hp
  rw [frames, (hA r' hr').leaves]
  exact hg r hr p hp hw r' hr' hne

/-- a leaf written for a page that no other space maps -/
theorem Guarded.written (hg : Guarded k.mem roots)
    (P : Patched paging k.mem (k.set g (x 0) e).mem 3 roots lowerHalf x r g)
    (hnew : ∀ r' ∈ roots, r' ≠ r → frame e ∉ frames k.mem r') : Guarded (k.set g (x 0) e).mem roots := by
  intro r1 hr1 p hp hw r2 hr2 hne hf
  by_cases h1 : r1 = r
  · subst h1
    rw [frames, P.others r2 hr2 hne] at hf
    rcases leaf_written P hp with hp | rfl
    · exact hg r1 hr1 p hp hw r2 hr2 hne hf
    · exact hnew r2 hr2 hne hf
  · rw [P.others r1 hr1 h1] at hp
    by_cases h2 : r2 = r
    · subst h2
      obtain ⟨q, hq, hqf⟩ := mem_map.1 hf
      rcases leaf_written P hq with hq | rfl
      · exact hg r1 hr1 p hp hw r2 hr2 hne (mem_map.2 ⟨q, hq, hqf⟩)
      · exact hnew r1 hr1 h1 (mem_map.2 ⟨p, hp, hqf.symm⟩)
    · rw [frames, P.others r2 hr2 h2] at hf
      exact hg r1 hr1 p hp hw r2 hr2 hne hf

/-- after a fork, nothing that two spaces map is writable -/
theorem Guarded.forked (hg : Guarded k.mem roots) (h : Spaces k roots) (hr : k.pml4 ∈ roots) (F : SpaceForked k k' d S)
    (hlow : ∀ f ∈ frames k.mem k.pml4, f < 2 ^ 20) : Guarded k'.mem (d :: roots) := by
  -- the leaves of the two spaces are read-only
  have hro : ∀ r, r = k.pml4 ∨ r = d → ∀ p ∈ paging.leaves k'.mem 3 r lowerHalf, has p.2 writeBit = false := by
    intro r hrd p hp
    rw [F.leaves_eq hrd, mem_map] at hp
    obtain ⟨q, hq, rfl⟩ := hp
    simp only [Prod.map_snd, marked, if_pos (h.plain _ hr q hq).2]
    exact write_cow q.2
  intro r1 hr1 p hp hw r2 hr2 hne hf
  by_cases h1 : r1 = k.pml4 ∨ r1 = d
  · rw [hro r1 h1 p hp] at hw
    exact absurd hw (by decide)
  · rw [not_or] at h1
    have hm1 : r1 ∈ roots := (mem_cons.1 hr1).resolve_left h1.2
    have hA1 := h.trees.forked_other hr F hm1 h1.1
    rw [hA1.leaves] at hp
    by_cases h2 : r2 = k.pml4 ∨ r2 = d
    · rw [F.frames_eq hlow h2] at hf
      exact hg r1 hm1 p hp hw _ hr (fun hc => h1.1 hc.symm) hf
    · rw [not_or] at h2
      have hm2 : r2 ∈ roots := (mem_cons.1 hr2).resolve_left h2.2
      rw [frames, (h.trees.forked_other hr F hm2 h2.1).leaves] at hf
      exact hg r1 hm1 p hp hw r2 hm2 hne hf

theorem Guarded.copied {va : UserAddr} {t : ℕ} (hg : Guarded k.mem roots) (h : Spaces k roots) (hr : k.pml4 ∈ roots)
    (L : CowLeaf k va.1 g e) (C : CowCopied k k' va.1 g e t) : Guarded k'.mem roots := by
  obtain ⟨hA, h1⟩ := h.copying C
  have ht40 := Pmm.lt_of_free C.fresh h.trees.phys
  have P := patched_set (copiedEntry t e) h1.trees lowerHalf_nodup hr va.lower (L.path.agree va.lower (hA _ hr))
  rw [C.state]
  refine (hg.agree hA).written P fun r' hr' _ hc => ?_
  rw [frame_copiedEntry ht40, frames, (hA r' hr').leaves] at hc
  exact h.used r' hr' t hc C.fresh

/-- a page without a counted reference has one owner -/
theorem Guarded.unmarked {va : UserAddr} (hg : Guarded k.mem roots) (h : Spaces k roots) (hr : k.pml4 ∈ roots)
    (L : CowLeaf k va.1 g e) (C : CowUnmarked k k' va.1 g e) (h1 : k.pmm.pmmGetref (e &&& pteMask) ≠ 1) :
    Guarded k'.mem roots := by
  have hmem : frame e ∈ frames k.mem k.pml4 := frame_mem_frames (p := (0, e)) va.lower L.walk
  have hzero : k.pmm.counts (frame e) = 0 := by
    have hrefs : k.pmm.refcounts ≠ none := fun hn => h1 (by rw [Pmm.pmmGetref, hn])
    have := @Pmm.getref_eq _ (e &&& pteMask) h.trees.pmm (h.inside _ hr _ hmem) hrefs
    have hsole := C.sole
    rw [pageIdx_mask] at this
    omega
  have P := patched_set (unmarkedEntry e) h.trees lowerHalf_nodup hr va.lower L.path
  rw [C.state]
  refine hg.written P fun r' hr' hne hc => ?_
  rw [frame_unmarkedEntry] at hc
  have := h.counted r' hr' _ hr hne _ hc hmem
  omega

end Guarded

/-! ## A write -/

section Write

variable {k k' : Kern} {roots : List ℕ} {va : UserAddr} {b : BitVec 8}

/-- `k'` is `k` with the byte at `va` in the active space set to `b`, and nothing else for ring 3 to see -/
structure Wrote (k k' : Kern) (roots : List ℕ) (va : UserAddr) (b : BitVec 8) : Prop where
  spaces : Spaces k' roots
  guarded : Guarded k'.mem roots
  view : ∀ r ∈ roots, ∀ va' : UserAddr,
    userByte k'.mem r va'.1 = if r = k.pml4 ∧ va' = va then some b else userByte k.mem r va'.1

/-- **A byte stored in a writable page** is seen by the one space that maps the page, at the one address. -/
theorem Spaces.stored {e : U64} (h : Spaces k roots) (hg : Guarded k.mem roots) (hr : k.pml4 ∈ roots)
    (hw : paging.walk k.mem 3 k.pml4 (idx va.1) = some (0, e)) (hwr : has e writeBit = true) :
    Wrote k (k.putByte (frame e) (va.1.toNat % pageSize) b) roots va b := by
  have hfmem : frame e ∈ frames k.mem k.pml4 := frame_mem_frames (p := (0, e)) va.lower hw
  have htab := h.apart _ hr _ hfmem
  have hA : ∀ r ∈ roots, Agree paging k.mem (k.putByte (frame e) (va.1.toNat % pageSize) b).mem 3 r lowerHalf :=
    fun r hr' => Agree.setPage htab _ hr'
  have h1 : Spaces (k.putByte (frame e) (va.1.toNat % pageSize) b) roots := h.setPage htab _
  refine ⟨h1, hg.agree hA, fun r hr' va' => ?_⟩
  by_cases hhit : r = k.pml4 ∧ va' = va
  · obtain ⟨rfl, rfl⟩ := hhit
    rw [if_pos ⟨rfl, rfl⟩, h1.view hr va', (hA _ hr).walk va'.lower, hw, Option.map_some, putByte_self,
      getByte_setByte _ _ (mod_pageSize_lt _) (mod_pageSize_lt _), if_pos rfl]
  · rw [if_neg hhit, h1.view hr' va', (hA r hr').walk va'.lower, h.view hr' va']
    cases hw' : paging.walk k.mem 3 r (idx va'.1) with
    | none => rfl
    | some q =>
      rw [Option.map_some, Option.map_some]
      by_cases hf : frame q.2 = frame e
      · -- the page written is mapped by this space only, and only here
        have hrr : r = k.pml4 := by
          by_contra hne
          exact hg _ hr (0, e) (mem_leaves.2 ⟨_, va.lower, hw⟩) hwr r hr' hne (hf ▸ frame_mem_frames va'.lower hw')
        subst hrr
        have hj : ∀ j ≤ 3, idx va.1 j = idx va'.1 j := fun j hj =>
          walk_unique (φ := fun p => frame p.2) (h.own _ hr) va.lower va'.lower hw hw' hf.symm j (Nat.zero_le j) hj
        rw [hf, putByte_self, getByte_setByte _ _ (mod_pageSize_lt _) (mod_pageSize_lt _), if_neg]
        exact fun ho => hhit ⟨rfl, (UserAddr.eq_of_idx hj ho.symm).symm⟩
      · rw [putByte_of_ne hf]

/-- **A store of ring 3** goes through when the leaf is writable, and only then. -/
theorem store_spec (h : Spaces k roots) (hg : Guarded k.mem roots) (hr : k.pml4 ∈ roots)
    (hcr3 : frame k.cr3 = k.pml4) :
    match k.store true va.1 b with
    | some k' => Wrote k k' roots va b
    | none => ∀ e, paging.walk k.mem 3 k.pml4 (idx va.1) = some (0, e) → has e writeBit = false := by
  cases hw : paging.walk k.mem 3 k.pml4 (idx va.1) with
  | none =>
    rw [store_absent hcr3 hw]
    exact fun e he => absurd he (by simp)
  | some p =>
    obtain ⟨e, rfl, -⟩ := h.walk_plain hr va.lower hw
    rw [h.store_leaf hr hcr3 hw]
    cases hwr : has e writeBit with
    | true => exact h.stored hg hr hw hwr
    | false =>
      intro e' he'
      rw [Option.some.injEq, Prod.mk.injEq] at he'
      rw [← he'.2, hwr]

/-- a repaired page, seen as the state before the retry -/
structure Repaired (k k1 : Kern) (roots : List ℕ) (va : UserAddr) : Prop where
  spaces : Spaces k1 roots
  guarded : Guarded k1.mem roots
  regs : k1.pml4 = k.pml4 ∧ k1.cr3 = k.cr3
  view : ∀ r ∈ roots, ∀ va' : UserAddr, userByte k1.mem r va'.1 = userByte k.mem r va'.1
  walk : ∃ e, paging.walk k1.mem 3 k.pml4 (idx va.1) = some (0, e) ∧ has e writeBit = true

theorem Repaired.of_copied {g t : ℕ} {e : U64} (h : Spaces k roots) (hg : Guarded k.mem roots) (hr : k.pml4 ∈ roots)
    (L : CowLeaf k va.1 g e) (C : CowCopied k k' va.1 g e t) : Repaired k k' roots va where
  spaces := h.copied hr L C
  guarded := hg.copied h hr L C
  regs := by rw [C.state]; exact ⟨rfl, rfl⟩
  view r hr' va' := h.copied_view hr L C hr' va'
  walk := ⟨_, h.trees.copied_walk hr L C, (copiedEntry_flags t e).2.1⟩

theorem Repaired.of_unmarked {g : ℕ} {e : U64} (h : Spaces k roots) (hg : Guarded k.mem roots) (hr : k.pml4 ∈ roots)
    (L : CowLeaf k va.1 g e) (C : CowUnmarked k k' va.1 g e) (h1 : k.pmm.pmmGetref (e &&& pteMask) ≠ 1) :
    Repaired k k' roots va where
  spaces := h.unmarked hr L C
  guarded := hg.unmarked h hr L C h1
  regs := by rw [C.state]; exact ⟨rfl, rfl⟩
  view r hr' va' := h.unmarked_view hr L C hr' va'
  walk := ⟨_, h.trees.unmarked_walk hr L C, (unmarkedEntry_flags L.present L.user).2.1⟩

/-- the leaf at `va` is neither writable nor marked, or there is none -/
def Refused (k : Kern) (va : UserAddr) : Prop :=
  ∀ e, paging.walk k.mem 3 k.pml4 (idx va.1) = some (0, e) → has e writeBit = false ∧ has e cowMark = false

/-- **A write of ring 3** changes one byte of one space, if it does not meet a marked page with the reference count 1.
It fails only where the page is not writable, or for want of a page to copy to. -/
theorem write_spec (h : Spaces k roots) (hg : Guarded k.mem roots) (hr : k.pml4 ∈ roots)
    (hcr3 : frame k.cr3 = k.pml4) (hsafe : ∀ g e, CowLeaf k va.1 g e → k.pmm.pmmGetref (e &&& pteMask) ≠ 1) :
    Meets (k.write true va.1 b)
      (fun st => (st = .panic .vmmOomCow ∧ k.pmm.freeSet = ∅) ∨ (st = .panic .unhandled ∧ Refused k va))
      fun k' => Wrote k k' roots va b := by
  have hstore := @store_spec k roots va b h hg hr hcr3
  unfold write
  rw [if_neg (not_not.2 va.canonical)]
  cases hst : k.store true va.1 b with
  | some k' =>
    rw [hst] at hstore
    exact meets_ok hstore
  | none =>
    rw [hst] at hstore
    simp only
    cases hm : mmuWalk k.mem 3 (frame k.cr3) (idx va.1) with
    | none =>
      -- not present: the handler gives up
      have hcode : ¬ (k.writeFaultCode true va.1 &&& 3 = 3 ∧ va.1 < 0x0000800000000000#64) := by
        rw [writeFaultCode_and, hm]
        exact fun hc => absurd hc.1 (by decide)
      rw [vmmPageFault, if_pos hcode, pure_eq_ok, ok_bind]
      refine meets_error (.inr ⟨rfl, fun e he => ?_⟩)
      have := mmuWalk_walk k.mem 3 k.pml4 (idx va.1)
      rw [← hcr3, hm, hcr3, he] at this
      exact absurd this (by simp)
    | some t =>
      have hcode : k.writeFaultCode true va.1 &&& 3 = 3 := by
        rw [writeFaultCode_and, hm]
        rfl
      refine ((vmmPageFault_spec h.trees.pmm va hcode).mono (fun st hst => .inl ⟨hst.1, hst.2.1⟩)
        fun _ hr => hr).bind ?_
      rintro ⟨r, k1⟩ (⟨hret, hno⟩ | ⟨hret, g, e, L, hcase⟩)
      · rw [Prod.mk.injEq] at hret
        rw [hret.1]
        refine meets_error (.inr ⟨rfl, fun e he => ⟨hstore e he, ?_⟩⟩)
        obtain ⟨g, hat, hent, hp⟩ := exists_at_of_walk he
        obtain ⟨e', he', hu⟩ := h.walk_plain hr va.lower he
        rw [Prod.mk.injEq] at he'
        rw [← he'.2] at hu
        by_contra hmark
        rw [Bool.not_eq_false] at hmark
        exact hno g e ⟨hat, hent, hp, hmark, hu⟩
      · have R : Repaired k k1 roots va := by
          rcases hcase with ⟨t, C⟩ | C
          · exact .of_copied h hg hr L C
          · exact .of_unmarked h hg hr L C (hsafe g e L)
        simp only at hret
        rw [hret, if_neg (not_not.2 rfl)]
        have hretry := @store_spec _ roots va b R.spaces R.guarded (R.regs.1 ▸ hr)
          (by rw [R.regs.1, R.regs.2, hcr3])
        cases hst1 : k1.store true va.1 b with
        | none =>
          rw [hst1] at hretry
          obtain ⟨e', hw, hwr⟩ := R.walk
          rw [← R.regs.1] at hw
          rw [hretry e' hw] at hwr
          exact absurd hwr (by decide)
        | some k' =>
          rw [hst1] at hretry
          refine meets_ok ⟨hretry.spaces, hretry.guarded, fun r hr' va' => ?_⟩
          rw [hretry.view r hr' va', R.view r hr' va', R.regs.1]

/-- a write to a marked page whose count is at most 1 goes to that page -/
theorem Spaces.write_sole {g : ℕ} {e : U64} (h : Spaces k roots) (hr : k.pml4 ∈ roots) (hcr3 : frame k.cr3 = k.pml4)
    (L : CowLeaf k va.1 g e) (hro : has e writeBit = false) (hsole : k.pmm.pmmGetref (e &&& pteMask) ≤ 1) :
    k.write true va.1 b =
    .ok ((k.set g (idx va.1 0) (unmarkedEntry e)).putByte (frame e) (va.1.toNat % pageSize) b) := by
  have hleaf : ∀ {g' e'}, CowLeaf k va.1 g' e' → g' = g ∧ e' = e := fun L' => by
    have hg := L'.path.unique L.path
    refine ⟨hg, ?_⟩
    rw [← L'.entry, ← L.entry, hg]
  have hcode : k.writeFaultCode true va.1 &&& 3 = 3 := by
    have hmmu := mmuWalk_walk k.mem 3 k.pml4 (idx va.1)
    rw [L.walk, Option.map_eq_some_iff] at hmmu
    obtain ⟨t, ht, -⟩ := hmmu
    rw [writeFaultCode_and, hcr3, ht]
    rfl
  obtain ⟨⟨ret, k1⟩, hrun, hcase⟩ := (vmmPageFault_spec h.trees.pmm va hcode).exists_ok fun st hst => by
    obtain ⟨-, -, g', e', L', href⟩ := hst
    rw [(hleaf L').2] at href
    omega
  rcases hcase with ⟨-, hno⟩ | ⟨hret, g', e', L', hcase⟩
  · exact absurd L (hno g e)
  · obtain ⟨rfl, rfl⟩ := hleaf L'
    rcases hcase with ⟨t, C⟩ | C
    · exact absurd C.shared (by omega)
    · have hflags := unmarkedEntry_flags L.present L.user
      have h1 := h.unmarked hr L C
      have hw := h.trees.unmarked_walk hr L C
      obtain rfl : k1 = _ := C.state
      have hretry := @Spaces.store_leaf _ _ _ b true _ h1 hr hcr3 hw
      rw [if_pos hflags.2.1, frame_unmarkedEntry] at hretry
      simp only at hret
      unfold write
      rw [if_neg (not_not.2 va.canonical), h.store_leaf hr hcr3 L.walk, hro, if_neg (by decide)]
      simp only [hrun, ok_bind, hret, ne_eq, not_true_eq_false, if_false, hretry]
      rfl

/-- and every other space that maps the page there reads the byte -/
theorem Spaces.write_sole_view {g r : ℕ} {e e' : U64} (h : Spaces k roots) (hr : k.pml4 ∈ roots)
    (L : CowLeaf k va.1 g e) (hsole : k.pmm.pmmGetref (e &&& pteMask) ≤ 1) (hr' : r ∈ roots) (hne : r ≠ k.pml4)
    (hw : paging.walk k.mem 3 r (idx va.1) = some (0, e')) (hf : frame e' = frame e) :
    userByte ((k.set g (idx va.1 0) (unmarkedEntry e)).putByte (frame e) (va.1.toNat % pageSize) b).mem r va.1 =
      some b := by
  have P := patched_set (unmarkedEntry e) h.trees lowerHalf_nodup hr va.lower L.path
  have h1 := h.unmarked hr L ⟨hsole, rfl⟩
  -- the leaf of the other space is not touched, and leads to the page written
  have hwalk := (P.miss r hr' _ va.lower (.inl hne)).trans hw
  have htab := h1.apart r hr' _ (frame_mem_frames va.lower hwalk)
  simp only [hf] at htab
  have h2 : Spaces ((k.set g (idx va.1 0) (unmarkedEntry e)).putByte (frame e) (va.1.toNat % pageSize) b) roots :=
    h1.setPage htab _
  rw [h2.view hr' va]
  have hA : Agree paging (k.set g (idx va.1 0) (unmarkedEntry e)).mem
      ((k.set g (idx va.1 0) (unmarkedEntry e)).putByte (frame e) (va.1.toNat % pageSize) b).mem 3 r lowerHalf :=
    Agree.setPage htab _ hr'
  rw [hA.walk va.lower, hwalk, Option.map_some, hf, putByte_self,
    getByte_setByte _ _ (mod_pageSize_lt _) (mod_pageSize_lt _), if_pos rfl]

end Write

end Kern

/-! ## Processes -/

/-- the live processes, by the `cr3` of each in order of creation -/
structure Procs where
  kern : Kern
  spaces : List PAddr

namespace Procs

inductive Op where
  | fork (p : ℕ)
  | write (p : ℕ) (va : UserAddr) (b : BitVec 8)

/-- one process runs, on its own address space, and forks or writes a byte -/
def step (s : Procs) : Op → Except Stop Procs
  | .fork p =>
    match s.spaces[p]? with
    | none => pure s
    | some cr3 => do
      let (pa, k) ← (s.kern.vmmSwitch cr3).vmmForkUserSpace
      pure ⟨k, s.spaces ++ [pa]⟩
  | .write p va b =>
    match s.spaces[p]? with
    | none => pure s
    | some cr3 => do
      let k ← (s.kern.vmmSwitch cr3).write true va.1 b
      pure ⟨k, s.spaces⟩

/-- a new space with a new page at each of the given addresses -/
def build (k : Kern) (maps : List (UserAddr × U64)) : Except Stop Procs := do
  let (cr3, k) ← k.vmmCreateSpace
  let k ← maps.foldlM (fun k m => do
    let (_, k) ← k.mapPage m.1.1 m.2
    pure k) (k.vmmSwitch cr3)
  pure ⟨k, [cr3]⟩

/-! ## The reference -/

/-- what a process reads at each user address -/
abbrev UserMem := UserAddr → Option (BitVec 8)

/-- what each process reads -/
def view (s : Procs) : List UserMem := s.spaces.map fun cr3 va => userByte s.kern.mem (frame cr3) va.1

/-- private memories: a fork copies one, a write changes one -/
def refStep (ms : List UserMem) : Op → List UserMem
  | .fork p =>
    match ms[p]? with
    | none => ms
    | some m => ms ++ [m]
  | .write p va b => ms.modify p fun m => Function.update m va (some b)

/-! ## Runs that keep to the reference -/

def roots (s : Procs) : List ℕ := s.spaces.map frame

/-- the step does not meet what the source gets wrong: a fork of a page from 4 GiB on, or a write to a copy-on-write
page whose reference count is 1 -/
def Safe (s : Procs) : Op → Prop
  | .fork p => ∀ cr3, s.spaces[p]? = some cr3 → ∀ f ∈ Kern.frames s.kern.mem (frame cr3), f < 2 ^ 20
  | .write p va _ => ∀ cr3, s.spaces[p]? = some cr3 →
    ∀ g e, Kern.CowLeaf (s.kern.vmmSwitch cr3) va.1 g e → s.kern.pmm.pmmGetref (e &&& pteMask) ≠ 1

structure Good (s : Procs) : Prop where
  addrs : ∀ cr3 ∈ s.spaces, pageIdx cr3 = frame cr3
  spaces : Kern.Spaces s.kern s.roots
  guarded : Kern.Guarded s.kern.mem s.roots

section Step

variable {s t : Procs} {p : ℕ} {cr3 : PAddr}

theorem mem_roots (h : s.spaces[p]? = some cr3) : frame cr3 ∈ s.roots :=
  mem_map.2 ⟨cr3, mem_of_getElem? h, rfl⟩

theorem Good.pml4 (h : Good s) (hp : s.spaces[p]? = some cr3) : (s.kern.vmmSwitch cr3).pml4 = frame cr3 :=
  h.addrs cr3 (mem_of_getElem? hp)

theorem Good.fork (h : Good s) (hsafe : Safe s (.fork p)) (hstep : s.step (.fork p) = .ok t) :
    Good t ∧ t.view = refStep s.view (.fork p) := by
  simp only [step] at hstep
  cases hp : s.spaces[p]? with
  | none =>
    simp only [hp, pure_ok] at hstep
    subst hstep
    have : s.view[p]? = none := by simp [view, hp]
    exact ⟨h, by simp only [refStep, this]⟩
  | some cr3 =>
    simp only [hp] at hstep
    obtain ⟨⟨pa, k'⟩, hrun, ht⟩ := bind_ok.1 hstep
    rw [pure_ok] at ht
    subst ht
    have hr : (s.kern.vmmSwitch cr3).pml4 ∈ s.roots := by
      rw [h.pml4 hp]
      exact mem_roots hp
    have hS := h.spaces.switch cr3
    have hlow : ∀ f ∈ frames (s.kern.vmmSwitch cr3).mem (s.kern.vmmSwitch cr3).pml4, f < 2 ^ 20 := by
      rw [h.pml4 hp]
      exact hsafe cr3 hp
    obtain ⟨d, S, hpa, hd, F⟩ := (vmmFork_spec (hS.spacePre hr)).of_eq hrun
    simp only at hpa F
    have hd40 := Pmm.lt_of_free hd h.spaces.trees.phys
    have hfr : frame pa = d := by rw [hpa, frame_pageAddr hd40]
    have hroots : (⟨k', s.spaces ++ [pa]⟩ : Procs).roots = s.roots ++ [d] := by
      rw [roots, map_append, map_singleton, hfr]
      rfl
    have hperm : (d :: s.roots).Perm (s.roots ++ [d]) := (perm_append_singleton d s.roots).symm
    refine ⟨⟨?_, ?_, ?_⟩, ?_⟩
    · intro c hc
      rcases mem_append.1 hc with hc | hc
      · exact h.addrs c hc
      · rw [mem_singleton.1 hc, hfr, hpa, Pmm.pageIdx_pageAddr (by omega)]
    · rw [hroots]
      exact (hS.forked hr F hlow).perm hperm
    · rw [hroots]
      have hG : Guarded k'.mem (d :: s.roots) := Guarded.forked (k := s.kern.vmmSwitch cr3) h.guarded hS hr F hlow
      intro r hr1 q hq hw r' hr' hne
      exact hG r (hperm.mem_iff.2 hr1) q hq hw r' (hperm.mem_iff.2 hr') hne
    · have hview : s.view[p]? = some fun va => userByte s.kern.mem (frame cr3) va.1 := by simp [view, hp]
      simp only [refStep, hview]
      rw [view, map_append, map_singleton]
      congr 1
      · refine map_congr_left fun c hc => funext fun va => ?_
        have hv := hS.forked_view (r := frame c) hr F hlow va
        by_cases hne : frame c = (s.kern.vmmSwitch cr3).pml4
        · rw [hv.1 (.inl hne), ← hne]
          rfl
        · exact hv.2 (mem_map.2 ⟨c, hc, rfl⟩) hne
      · refine congrArg (fun m => [m]) (funext fun va => ?_)
        rw [hfr, (hS.forked_view (r := d) hr F hlow va).1 (.inr rfl), h.pml4 hp]
        rfl

theorem step_write {va : UserAddr} {b : BitVec 8} {k : Kern} (hp : s.spaces[p]? = some cr3)
    (hw : (s.kern.vmmSwitch cr3).write true va.1 b = .ok k) : s.step (.write p va b) = .ok ⟨k, s.spaces⟩ := by
  simp only [Procs.step, hp, hw, ok_bind, pure_eq_ok]

theorem Good.write {va : UserAddr} {b : BitVec 8} (h : Good s) (hsafe : Safe s (.write p va b))
    (hstep : s.step (.write p va b) = .ok t) : Good t ∧ t.view = refStep s.view (.write p va b) := by
  simp only [step] at hstep
  cases hp : s.spaces[p]? with
  | none =>
    simp only [hp, pure_ok] at hstep
    subst hstep
    refine ⟨h, ?_⟩
    rw [refStep, modify_eq_self]
    rw [view, length_map]
    exact List.getElem?_eq_none_iff.1 hp
  | some cr3 =>
    simp only [hp] at hstep
    obtain ⟨k', hrun, ht⟩ := bind_ok.1 hstep
    rw [pure_ok] at ht
    subst ht
    have hr : (s.kern.vmmSwitch cr3).pml4 ∈ s.roots := by
      rw [h.pml4 hp]
      exact mem_roots hp
    have W := (write_spec (h.spaces.switch cr3) h.guarded hr (h.pml4 hp).symm (hsafe cr3 hp)).of_eq hrun
    refine ⟨⟨h.addrs, W.spaces, W.guarded⟩, ?_⟩
    -- only process `p` has the space that was written
    have hnodup : s.roots.Nodup := roots_nodup h.spaces.trees.nodup
    refine ext_getElem? fun i => ?_
    rw [refStep, getElem?_modify, view, view, getElem?_map, getElem?_map]
    cases hi : s.spaces[i]? with
    | none => rfl
    | some c =>
      have hW := W.view (frame c) (mem_roots hi)
      rw [h.pml4 hp] at hW
      simp only [Option.map_some, Option.map_eq_map, Option.some.injEq]
      by_cases hip : p = i
      · subst hip
        rw [hp, Option.some.injEq] at hi
        subst hi
        rw [if_pos rfl]
        funext va'
        rw [hW va']
        by_cases hva : va' = va
        · rw [if_pos ⟨rfl, hva⟩, hva, update_self]
        · rw [if_neg fun hc => hva hc.2, update_of_ne hva]
          rfl
      · rw [if_neg hip]
        funext va'
        rw [hW va', if_neg]
        · rfl
        · rintro ⟨hc, -⟩
          have h1 : s.roots[i]? = some (frame c) := by rw [roots, getElem?_map, hi]; rfl
          have h2 : s.roots[p]? = some (frame c) := by rw [roots, getElem?_map, hp, hc]; rfl
          have hlt : p < s.roots.length := (List.getElem?_eq_some_iff.1 h2).1
          exact hip ((getElem?_inj hlt hnodup).1 (h2.trans h1.symm))

theorem Good.step {o : Op} (h : Good s) (hsafe : Safe s o) (hstep : s.step o = .ok t) :
    Good t ∧ t.view = refStep s.view o := by
  cases o with
  | fork p => exact h.fork hsafe hstep
  | write p va b => exact h.write hsafe hstep

end Step

/-- a space built from new pages is in order -/
theorem build_good {k : Kern} {maps : List (UserAddr × U64)} {s : Procs} (hk : k.pmm.Ok)
    (hphys : k.pmm.bitmapLen ≤ 2 ^ 40) (hflags : ∀ m ∈ maps, UserFlags m.2) (hb : build k maps = .ok s) : Good s := by
  obtain ⟨⟨cr3, k1⟩, hc, hb⟩ := bind_ok.1 hb
  obtain ⟨k2, hfold, hs⟩ := bind_ok.1 hb
  rw [pure_ok] at hs
  subst hs
  obtain ⟨d, hcr3, C⟩ := (vmmCreateSpace_spec hk).of_eq hc
  simp only at hcr3 C
  have hd40 := Pmm.lt_of_free C.fresh hphys
  have h1 : Spaces k1 [d] := (Spaces.nil hk hphys).created C
  have hpml4 : (k1.vmmSwitch cr3).pml4 = d := by
    rw [hcr3]
    exact Pmm.pageIdx_pageAddr (by omega)
  have h2 : Spaces k2 [d] ∧ k2.pml4 = d := by
    refine foldlM_inv (fun k => Spaces k [d] ∧ k.pml4 = d) ?_ ⟨h1.switch cr3, hpml4⟩ hfold
    rintro ka m kb hm ⟨hS, hp⟩ hstep
    obtain ⟨⟨pa, kc⟩, hmap, hkc⟩ := bind_ok.1 hstep
    rw [pure_ok] at hkc
    subst hkc
    obtain ⟨t, S, -, -, M⟩ := (mapPage_spec hS (by rw [hp]; exact mem_singleton_self d) (hflags m hm)).of_eq hmap
    exact ⟨M.spaces, M.regs.1.trans hp⟩
  have hroots : (⟨k2, [cr3]⟩ : Procs).roots = [d] := by
    rw [roots, map_singleton, hcr3, frame_pageAddr hd40]
  refine ⟨?_, ?_, ?_⟩
  · intro c hc
    rw [mem_singleton.1 hc, hcr3, frame_pageAddr hd40, Pmm.pageIdx_pageAddr (by omega)]
  · rw [hroots]
    exact h2.1
  · rw [hroots]
    intro r hr p _ _ r' hr' hne
    rw [mem_singleton.1 hr, mem_singleton.1 hr'] at hne
    exact absurd rfl hne

/-- **Fork isolation**, for every space built from new pages and every run in which no fork meets a page from 4 GiB on
and no write meets a copy-on-write page with the reference count 1: each process reads what it would if a fork copied
the parent's memory. -/
theorem fork_isolation_when (k : Kern) (maps : List (UserAddr × U64)) (s t : Procs) (ops : List Op) (hk : k.pmm.Ok)
    (hphys : k.pmm.bitmapLen ≤ 2 ^ 40) (hflags : ∀ m ∈ maps, Kern.UserFlags m.2) (hbuild : build k maps = .ok s)
    (hrun : Steps (fun s o t => Safe s o ∧ s.step o = .ok t) s ops t) : t.view = ops.foldl refStep s.view := by
  have hgood := build_good hk hphys hflags hbuild
  clear hbuild
  induction hrun with
  | nil => rfl
  | cons hstep _ ih =>
    obtain ⟨hgood', hview⟩ := hgood.step hstep.1 hstep.2
    rw [ih hgood', hview]
    rfl

/-! ## One page, one fork, one write -/

/-- 64 pages, the first two in use, nothing mapped -/
def start : Kern := ⟨fun _ _ => 0, Pmm.fresh 64 2 (some fun _ => 0), 1, pageAddr 1, pageAddr 1⟩

theorem startVa_lower : (0x400000#64 : U64) < 0x0000800000000000#64 := by decide

/-- where the page goes -/
def startVa : UserAddr := ⟨0x400000#64, startVa_lower⟩

theorem start_ok : start.pmm.Ok := Pmm.fresh_ok _ (by decide) (by decide) (by decide) (by decide)

theorem start_free : start.pmm.freeSet.card = 62 := by
  rw [show start.pmm.freeSet = Finset.Ico 2 64 from Pmm.freeSet_fresh _ _ (by decide)]
  rfl

/-- a process with one page, writable, that the leaf `e` maps -/
structure Fresh (s : Procs) (cr3 : PAddr) (e : U64) : Prop where
  good : Good s
  spaces : s.spaces = [cr3]
  leaves : paging.leaves s.kern.mem 3 (frame cr3) lowerHalf = [(0, e)]
  walk : paging.walk s.kern.mem 3 (frame cr3) (idx startVa.1) = some (0, e)
  user : has e vmmUser = true
  write : has e writeBit = true
  mark : has e cowMark = false
  page : frame e < 64
  refs : s.kern.pmm.refcounts = some fun _ => 0
  len : s.kern.pmm.bitmapLen = 64
  free : 57 ≤ s.kern.pmm.freeSet.card

theorem start_built : ∃ s cr3 e, build start [(startVa, tableFlags)] = .ok s ∧ Fresh s cr3 e ∧
    s.kern.mem (frame e) = fun _ => 0 := by
  have hflags : UserFlags tableFlags := by decide
  obtain ⟨⟨cr3, k1⟩, hc, d, hcr3, C⟩ := (vmmCreateSpace_spec start_ok).exists_ok fun st hst => by
    have := start_free
    rw [hst.2] at this
    exact absurd this (by decide)
  simp only at hcr3 C
  have hd64 : d < 64 := (Pmm.mem_freeSet.1 C.fresh).1
  have h1 : Spaces (k1.vmmSwitch cr3) [d] := ((Spaces.nil start_ok (by decide)).created C).switch cr3
  have hpml4 : (k1.vmmSwitch cr3).pml4 = d := by
    rw [hcr3]
    exact Pmm.pageIdx_pageAddr (by omega)
  have hempty := empty_space C.lower
  have hfree1 : 61 ≤ k1.pmm.freeSet.card := by
    rw [C.takes.free]
    have := Finset.le_card_sdiff {d} start.pmm.freeSet
    rw [start_free, Finset.card_singleton] at this
    omega
  have hr : (k1.vmmSwitch cr3).pml4 ∈ [d] := by rw [hpml4]; exact mem_singleton_self d
  obtain ⟨⟨pa, k2⟩, hmap, t, S, -, ht, M⟩ := (@Kern.mapPage_spec _ _ startVa _ h1 hr hflags).exists_ok fun st hst => by
    rcases hst with ⟨-, hlt⟩ | ⟨-, hw⟩
    · change k1.pmm.freeSet.card < 4 at hlt
      omega
    · refine hw (Option.eq_none_iff_forall_ne_some.2 fun q hq => ?_)
      have hmem := mem_leaves.2 ⟨_, startVa.lower, hq⟩
      rw [hpml4, show (k1.vmmSwitch cr3).mem = k1.mem from rfl, hempty.2.1] at hmem
      exact not_mem_nil hmem
  have hbuild : build start [(startVa, tableFlags)] = .ok ⟨k2, [cr3]⟩ := by
    simp only [build, hc, ok_bind, foldlM_cons, foldlM_nil, hmap, pure_eq_ok]
  have hfr : frame cr3 = d := by rw [hcr3, frame_pageAddr (by omega)]
  have ht64 : t < 64 := by
    have := (Pmm.mem_freeSet.1 ht).1
    rw [show (k1.vmmSwitch cr3).pmm = k1.pmm from rfl, C.takes.len] at this
    exact this
  have htd : t ≠ d := fun hc' => by
    have := h1.trees.used d (mem_forest.2 ⟨d, mem_singleton_self d, mem_cons_self⟩)
    exact this (hc' ▸ ht)
  have hte : frame (pageEntry t tableFlags) = t := frame_pageEntry (by omega) hflags.1
  refine ⟨_, cr3, pageEntry t tableFlags, hbuild, ?_, ?_⟩
  rotate_left
  · rw [hte, M.contents]
    exact C.other t htd
  constructor
  case good => exact build_good start_ok (by decide) (forall_mem_singleton.2 hflags) hbuild
  case spaces => rfl
  case leaves =>
    obtain ⟨a, b, hold, hnew⟩ := M.leaves
    rw [hpml4, show (k1.vmmSwitch cr3).mem = k1.mem from rfl, hempty.2.1] at hold
    obtain ⟨rfl, rfl⟩ := append_eq_nil_iff.1 hold.symm
    rw [hfr, ← hpml4, hnew]
    rfl
  case walk =>
    rw [hfr, ← hpml4]
    exact M.hit _ fun _ _ => rfl
  case user => exact pageEntry_has t (by decide)
  case write => exact pageEntry_has t (by decide)
  case mark =>
    rw [pageEntry, has_or, show has tableFlags cowMark = false by decide, Bool.or_false, has_and,
      show pteMask &&& cowMark = 0 by decide, has_zero]
  case page => rwa [hte]
  case refs =>
    rw [M.takes.refs]
    exact C.takes.refs
  case len => exact M.takes.len.trans C.takes.len
  case free =>
    rw [M.takes.free]
    have := Finset.le_card_sdiff S k1.pmm.freeSet
    have := M.few
    change 57 ≤ (k1.pmm.freeSet \ S).card
    omega

/-- a fork with room for its tables goes through -/
theorem Good.fork_ok {s : Procs} {p : ℕ} {cr3 : PAddr} (h : Good s) (hp : s.spaces[p]? = some cr3)
    (hrefs : s.kern.pmm.refcounts ≠ none)
    (hroom : (paging.tables s.kern.mem 3 (frame cr3) lowerHalf).length ≤ s.kern.pmm.freeSet.card) :
    ∃ d S k', s.step (.fork p) = .ok ⟨k', s.spaces ++ [pageAddr d]⟩ ∧ d < 2 ^ 40 ∧
      SpaceForked (s.kern.vmmSwitch cr3) k' d S := by
  have hr : (s.kern.vmmSwitch cr3).pml4 ∈ s.roots := by
    rw [h.pml4 hp]
    exact mem_roots hp
  obtain ⟨⟨pa, k'⟩, hrun, d, S, rfl, hd, F⟩ :=
    (vmmFork_spec ((h.spaces.switch cr3).spacePre hr)).exists_ok fun st hst => by
      rcases hst.2 with hn | hlt
      · exact hrefs hn
      · rw [h.pml4 hp] at hlt
        exact absurd hroom (not_le.2 hlt)
  refine ⟨d, S, k', ?_, Pmm.lt_of_free hd h.spaces.trees.phys, F⟩
  simp only [Procs.step, hp, hrun, ok_bind, pure_eq_ok]

section OnePage

variable {s : Procs} {cr3 : PAddr} {e : U64}

theorem Fresh.mem (F : Fresh s cr3 e) : s.spaces[0]? = some cr3 := by rw [F.spaces]; rfl

theorem Fresh.room (F : Fresh s cr3 e) :
    (paging.tables s.kern.mem 3 (frame cr3) lowerHalf).length ≤ s.kern.pmm.freeSet.card := by
  have := F.good.spaces.room (mem_roots F.mem)
  have := F.len
  have := F.free
  omega

theorem Fresh.low (F : Fresh s cr3 e) : ∀ f ∈ frames s.kern.mem (frame cr3), f < 2 ^ 20 := by
  rw [frames, F.leaves, map_singleton, forall_mem_singleton]
  exact F.page.trans (by decide)

theorem Fresh.safe (F : Fresh s cr3 e) : Safe s (.fork 0) := fun c hc => by
  rw [F.mem, Option.some.injEq] at hc
  exact hc ▸ F.low

/-- the process writes its page -/
theorem Fresh.wrote (F : Fresh s cr3 e) (b : BitVec 8) :
    ∃ t, Safe s (.write 0 startVa b) ∧ s.step (.write 0 startVa b) = .ok t ∧ Fresh t cr3 e := by
  have hpml4 : (s.kern.vmmSwitch cr3).pml4 = frame cr3 := F.good.pml4 F.mem
  have hmem : frame cr3 ∈ s.roots := mem_roots F.mem
  have hS := F.good.spaces.switch cr3
  have hwalk : paging.walk (s.kern.vmmSwitch cr3).mem 3 (s.kern.vmmSwitch cr3).pml4 (idx startVa.1) = some (0, e) := by
    rw [hpml4]
    exact F.walk
  have htab : frame e ∉ paging.forest s.kern.mem 3 s.roots lowerHalf :=
    F.good.spaces.apart _ hmem _ (frame_mem_frames (p := (0, e)) startVa.lower F.walk)
  have hsafe : Safe s (.write 0 startVa b) := by
    intro c hc g e' L
    rw [F.mem, Option.some.injEq] at hc
    subst hc
    have he : e' = e := by
      have := L.walk.symm.trans hwalk
      simpa using this
    have hmark := L.mark
    rw [he, F.mark] at hmark
    exact absurd hmark (by decide)
  have hwrite : (s.kern.vmmSwitch cr3).write true startVa.1 b =
      .ok ((s.kern.vmmSwitch cr3).putByte (frame e) (startVa.1.toNat % pageSize) b) := by
    unfold Kern.write
    rw [if_neg (not_not.2 startVa.canonical), hS.store_leaf (by rwa [hpml4]) hpml4.symm hwalk, if_pos F.write]
    rfl
  have hstep := step_write F.mem hwrite
  have hA := Agree.setPage htab (setByte (s.kern.mem (frame e)) (startVa.1.toNat % pageSize) b) hmem
  refine ⟨_, hsafe, hstep, ?_⟩
  exact ⟨(F.good.step hsafe hstep).1, F.spaces, hA.leaves.trans F.leaves, (hA.walk startVa.lower).trans F.walk, F.user,
    F.write, F.mark, F.page, F.refs, F.len, F.free⟩

/-- parent and child have the same marked leaf, for a page with the count 1 -/
structure Shared (k : Kern) (r d : ℕ) (e : U64) : Prop where
  parent : paging.walk k.mem 3 r (idx startVa.1) = some (0, cow e)
  child : paging.walk k.mem 3 d (idx startVa.1) = some (0, cow e)
  user : has (cow e) vmmUser = true
  sole : k.pmm.pmmGetref (cow e &&& pteMask) ≤ 1

theorem Fresh.shared {k' : Kern} {d : ℕ} {S : Finset ℕ} (F : Fresh s cr3 e)
    (D : SpaceForked (s.kern.vmmSwitch cr3) k' d S) : Shared k' (frame cr3) d e := by
  have hpml4 : (s.kern.vmmSwitch cr3).pml4 = frame cr3 := F.good.pml4 F.mem
  have hwalk : ∀ r, r = frame cr3 ∨ r = d → paging.walk k'.mem 3 r (idx startVa.1) = some (0, cow e) := by
    intro r hr
    rw [D.walk_eq (by rwa [hpml4]) startVa.lower, hpml4, show (s.kern.vmmSwitch cr3).mem = s.kern.mem from rfl, F.walk,
      Option.map_some, Prod.map_apply, id_eq, marked, if_pos F.user]
  refine ⟨hwalk _ (.inl rfl), hwalk _ (.inr rfl), (has_cow e (by decide) (by decide)).trans F.user, ?_⟩
  have hpage := F.page
  by_contra hgt
  have hlt := (Pmm.getref_gt D.draws.ok (Nat.lt_of_not_le hgt)).2.2
  have hlist : userFrames s.kern.pmm.bitmapLen [(0, e)] = [frame e] := by
    simp [userFrames, F.user, F.len, F.page]
  rw [pageIdx_mask, frame_cow, Nat.mod_eq_of_lt (by omega), D.counts, hpml4,
    show (s.kern.vmmSwitch cr3).mem = s.kern.mem from rfl, F.leaves,
    show (s.kern.vmmSwitch cr3).pmm = s.kern.pmm from rfl, hlist, Pmm.counts_some F.refs] at hlt
  simp [Pmm.bump] at hlt

end OnePage

/-- **A child's write reaches its parent**: the page built, a fork, a write of 1 by the child. The parent reads 1 where
the reference has 0. -/
theorem child_write_reaches_parent : ∃ s t : Procs, build start [(startVa, tableFlags)] = .ok s ∧
    run step s [.fork 0, .write 1 startVa 1] = .ok t ∧ t.view[0]?.bind (· startVa) = some 1 ∧
    ([Op.fork 0, .write 1 startVa 1].foldl refStep s.view)[0]?.bind (· startVa) = some 0 := by
  obtain ⟨s, cr3, e, hbuild, F, hempty⟩ := start_built
  obtain ⟨d, S, k', hfork, hd, D⟩ := F.good.fork_ok F.mem (by rw [F.refs]; simp) F.room
  have hgood := (F.good.step F.safe hfork).1
  have H := F.shared D
  have hspaces : s.spaces ++ [pageAddr d] = [cr3, pageAddr d] := by rw [F.spaces]; rfl
  rw [hspaces] at hgood hfork
  have hroots : (⟨k', [cr3, pageAddr d]⟩ : Procs).roots = [frame cr3, d] := by
    rw [roots, List.map_cons, List.map_singleton, frame_pageAddr hd]
  have hS := hgood.spaces.switch (pageAddr d)
  rw [hroots] at hS
  have hpml4 : (k'.vmmSwitch (pageAddr d)).pml4 = d := Pmm.pageIdx_pageAddr (by omega)
  have hmem : d ∈ [frame cr3, d] := List.mem_cons_of_mem _ (List.mem_singleton_self d)
  obtain ⟨g, hat, hent, hp⟩ := exists_at_of_walk H.child
  have L : Kern.CowLeaf (k'.vmmSwitch (pageAddr d)) startVa.1 g (cow e) := by
    refine ⟨?_, hent, hp, mark_cow e, H.user⟩
    rw [hpml4]
    exact hat
  have hwrite := hS.write_sole (b := 1) (by rwa [hpml4]) (by rw [hpml4]; exact frame_pageAddr hd) L (write_cow e) H.sole
  have hne : frame cr3 ≠ d := by
    have := roots_nodup hS.trees.nodup
    simpa using this
  have hseen := hS.write_sole_view (b := 1) (by rwa [hpml4]) L H.sole List.mem_cons_self (by rwa [hpml4]) H.parent rfl
  have hstep := step_write (s := ⟨k', [cr3, pageAddr d]⟩) (p := 1) rfl hwrite
  refine ⟨s, _, hbuild, run_cons_ok.2 ⟨_, hfork, run_cons_ok.2 ⟨_, hstep, run_nil step _⟩⟩, hseen, ?_⟩
  have h0 : s.view = [fun va => userByte s.kern.mem (frame cr3) va.1] := by rw [view, F.spaces]; rfl
  rw [h0]
  show userByte s.kern.mem (frame cr3) startVa.1 = some 0
  rw [F.good.spaces.view (mem_roots F.mem), F.walk, Option.map_some, hempty]
  rfl

/-- a write and a fork that meet the conditions -/
theorem fork_isolation_one_page : ∃ s t : Procs, build start [(startVa, tableFlags)] = .ok s ∧
    Steps (fun s o t => Safe s o ∧ s.step o = .ok t) s [.write 0 startVa 7, .fork 0] t ∧
    t.view = [Op.write 0 startVa 7, .fork 0].foldl refStep s.view := by
  obtain ⟨s, cr3, e, hbuild, F, -⟩ := start_built
  obtain ⟨u, hsafe, hwrite, F'⟩ := F.wrote 7
  obtain ⟨d, S, k', hfork, -, -⟩ := F'.good.fork_ok F'.mem (by rw [F'.refs]; simp) F'.room
  have hrun : Steps (fun s o t => Safe s o ∧ s.step o = .ok t) s [.write 0 startVa 7, .fork 0] _ :=
    .cons ⟨hsafe, hwrite⟩ (.cons ⟨F'.safe, hfork⟩ (.nil _))
  refine ⟨s, _, hbuild, hrun, ?_⟩
  exact fork_isolation_when start _ s _ _ start_ok (by decide) (List.forall_mem_singleton.2 (by decide)) hbuild hrun

end Procs

end Uix
