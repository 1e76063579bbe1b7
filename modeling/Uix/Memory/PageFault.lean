/-
`vmm_page_fault` on a user write: the leaf of a copy-on-write page is made writable, for a copy of the page when its
reference count says that it is shared, in place otherwise.

- `vmmPageFault_spec`: what it does, in terms of the walk to the faulting address.
- `Spaces.copied`, `Spaces.unmarked`: either way the spaces stay in order.
- `Spaces.copied_view`, `Spaces.unmarked_view`: either way every process reads what it read.
-/
import Uix.Memory.Spaces

namespace Uix

open Machine Radix Radix.Format Bytes Function
open Pmm (pageIdx pageAddr Takes Draws)

/-! ## The entries it writes -/

/-- the leaf for the copy of a page -/
def copiedEntry (t : ℕ) (e : U64) : U64 := (pageAddr t &&& pteMask) ||| tableFlags ||| (e &&& vmmNoexec)

/-- the leaf for a page that is not shared any more -/
def unmarkedEntry (e : U64) : U64 := (e &&& ~~~ cowMark) ||| writeBit

theorem copiedEntry_flags (t : ℕ) (e : U64) : has (copiedEntry t e) vmmPresent = true ∧
    has (copiedEntry t e) writeBit = true ∧ has (copiedEntry t e) vmmUser = true := by
  simp only [copiedEntry, has_or, show has tableFlags vmmPresent = true by decide,
    show has tableFlags writeBit = true by
    decide, show has tableFlags vmmUser = true by decide, Bool.or_true, Bool.true_or, and_self]

theorem frame_copiedEntry {t : ℕ} (ht : t < 2 ^ 40) (e : U64) : frame (copiedEntry t e) = t := by
  have hnx : ((e &&& vmmNoexec) >>> 12) &&& 0xFFFFFFFFFF#64 = 0 := by
    rw [BitVec.ushiftRight_and_distrib, BitVec.and_assoc]
    exact BitVec.and_zero
  rw [copiedEntry, frame_or hnx, pageAddr_and_mask ht, frame_table ht]

theorem unmarkedEntry_flags {e : U64} (hp : has e vmmPresent = true) (hu : has e vmmUser = true) :
    has (unmarkedEntry e) vmmPresent = true ∧ has (unmarkedEntry e) writeBit = true ∧
      has (unmarkedEntry e) vmmUser = true := by
  simp only [unmarkedEntry, has_or, has_and, show ~~~ cowMark &&& vmmPresent = vmmPresent by decide,
    show ~~~ cowMark &&& vmmUser = vmmUser by decide, hp, hu, show has writeBit writeBit = true by decide, Bool.or_true,
    Bool.true_or, and_self]

theorem frame_unmarkedEntry (e : U64) : frame (unmarkedEntry e) = frame e := by
  rw [unmarkedEntry, frame_or (by decide), frame_and (by decide)]

/-- the page offset plays no part in the indices -/
theorem idx_align (va : U64) : idx (va &&& ~~~ 0xFFF#64) = idx va := by
  have h : (va &&& ~~~ 0xFFF#64) >>> 12 = va >>> 12 := by
    rw [BitVec.ushiftRight_and_distrib]
    apply BitVec.eq_of_toNat_eq
    rw [BitVec.toNat_and, show (~~~ 0xFFF#64 >>> 12).toNat = 2 ^ 52 - 1 from rfl, Nat.and_two_pow_sub_one_eq_mod,
      BitVec.toNat_ushiftRight, Nat.shiftRight_eq_div_pow]
    exact Nat.mod_eq_of_lt (by have := va.isLt; omega)
  funext l
  rw [idx, slot, BitVec.shiftRight_add, h, ← BitVec.shiftRight_add]
  rfl

namespace Kern

/-! ## What the handler does -/

/-- the walk to `va` ends at a leaf that the handler repairs, entry `idx va 0` of table `g` -/
structure CowLeaf (k : Kern) (va : U64) (g : ℕ) (e : U64) : Prop where
  path : At paging k.mem (idx va) 3 k.pml4 0 g
  entry : k.mem g (idx va 0) = e
  present : has e vmmPresent = true
  mark : has e cowMark = true
  user : has e vmmUser = true

theorem CowLeaf.walk {k : Kern} {va e : U64} {g : ℕ} (h : CowLeaf k va g e) :
    paging.walk k.mem 3 k.pml4 (idx va) = some (0, e) := by
  rw [h.path.walk, walk_zero (by rw [paging_present, h.entry, h.present]), h.entry]

/-- the page copied to `t`, with one reference less to it -/
structure CowCopied (k k' : Kern) (va : U64) (g : ℕ) (e : U64) (t : ℕ) : Prop where
  shared : 1 < k.pmm.pmmGetref (e &&& pteMask)
  fresh : t ∈ k.pmm.freeSet
  draws : Draws k.pmm {t} k'.pmm
  refs : k'.pmm.refcounts = some (Function.update k.pmm.counts (frame e) (k.pmm.counts (frame e) - 1))
  state : k' = ((k.setPmm k'.pmm).copyPage t (frame e)).set g (idx va 0) (copiedEntry t e)

/-- the page made writable where it is -/
structure CowUnmarked (k k' : Kern) (va : U64) (g : ℕ) (e : U64) : Prop where
  sole : k.pmm.pmmGetref (e &&& pteMask) ≤ 1
  state : k' = k.set g (idx va 0) (unmarkedEntry e)

/-- **`vmm_page_fault` on a write to a present page.** -/
theorem vmmPageFault_spec {k : Kern} (h : k.pmm.Ok) (va : UserAddr) {err : U64} (herr : err &&& 3 = 3) :
    Meets (k.vmmPageFault va.1 err) (fun st => st = .panic .vmmOomCow ∧ k.pmm.freeSet = ∅ ∧
        ∃ g e, CowLeaf k va.1 g e ∧ 1 < k.pmm.pmmGetref (e &&& pteMask)) fun r =>
      (r = (-1, k) ∧ ∀ g e, ¬ CowLeaf k va.1 g e) ∨
        (r.1 = 0 ∧ ∃ g e, CowLeaf k va.1 g e ∧
          ((∃ t, CowCopied k r.2 va.1 g e t) ∨ CowUnmarked k r.2 va.1 g e)) := by
  obtain ⟨o, hrun, hend⟩ := k.ptFor_look (va.1 &&& ~~~ 0xFFF#64)
  simp only [vmmPageFault, if_neg (not_not.2 (And.intro herr va.2)), hrun, ok_bind]
  rw [idx_align] at hend
  rw [show ptIdx (va.1 &&& ~~~ 0xFFF#64) = idx va.1 0 from congrFun (idx_align va.1) 0]
  cases o with
  | none =>
    refine meets_ok (.inl ⟨rfl, fun g e hc => ?_⟩)
    exact hend e hc.walk
  | some g =>
    simp only
    by_cases hleaf : (has (k.mem g (idx va.1 0)) vmmPresent && has (k.mem g (idx va.1 0)) cowMark &&
        has (k.mem g (idx va.1 0)) vmmUser) = true
    · rw [if_neg (by rw [hleaf]; decide)]
      rw [Bool.and_eq_true, Bool.and_eq_true] at hleaf
      have hC : CowLeaf k va.1 g (k.mem g (idx va.1 0)) := ⟨hend, rfl, hleaf.1.1, hleaf.1.2, hleaf.2⟩
      by_cases href : 1 < k.pmm.pmmGetref (k.mem g (idx va.1 0) &&& pteMask)
      · rw [if_pos href]
        refine meets_alloc h (fun h0 => meets_error ⟨rfl, h0, g, _, hC, href⟩) fun t p ht h0 hT => ?_
        have ht52 := Pmm.lt_of_free ht h.small
        have hcounts : p.counts = k.pmm.counts := by rw [Pmm.counts, hT.refs, Pmm.counts]
        have hgetref : p.pmmGetref = k.pmm.pmmGetref := by
          funext pa
          rw [Pmm.pmmGetref, hT.refs, hT.ok.total, hT.len, ← h.total, Pmm.pmmGetref]
        obtain ⟨p', hun, hD, hr⟩ := @Pmm.pmmUnref_shared _ (k.mem g (idx va.1 0) &&& pteMask) hT.ok (by
          rw [hgetref]
          exact href)
        rw [hcounts] at hr
        simp only [if_neg h0, Pmm.pageIdx_pageAddr ht52, Kern.pmmUnref]
        rw [show (((k.setPmm p).copyPage t (pageIdx (k.mem g (idx va.1 0) &&& pteMask))).pmm) = p from rfl, hun]
        refine meets_ok (.inr ⟨rfl, g, _, hC, .inl ⟨t, href, ht, ?_, hr, rfl⟩⟩)
        have := hT.draws.trans hD
        rwa [Finset.union_empty] at this
      · rw [if_neg href]
        exact meets_ok (.inr ⟨rfl, g, _, hC, .inr ⟨Nat.not_lt.1 href, rfl⟩⟩)
    · rw [if_pos (by rw [Bool.not_eq_true] at hleaf; rw [hleaf]; rfl)]
      refine meets_ok (.inl ⟨rfl, fun g' e hc => hleaf ?_⟩)
      rw [hend.unique hc.path, hc.entry, hc.present, hc.mark, hc.user]
      rfl

/-! ## The spaces afterwards -/

section Handled

variable {k k' : Kern} {roots : List ℕ} {va : UserAddr} {g t : ℕ} {e : U64}

theorem CowCopied.counts (C : CowCopied k k' va.1 g e t) (h : k.pmm.Ok) {f : ℕ} (hf : 1 ≤ k.pmm.counts f) :
    1 ≤ k'.pmm.counts f := by
  have h1 : 1 < k.pmm.counts (frame e) := (Pmm.getref_gt h C.shared).2.2
  rw [Pmm.counts_some C.refs]
  by_cases hfe : f = frame e
  · rw [hfe, update_self]
    omega
  · rwa [update_of_ne hfe]

/-- the copy is made in a page that holds no table -/
theorem Trees.copying (T : Trees k roots lowerHalf) (C : CowCopied k k' va.1 g e t) {r : ℕ} (hr : r ∈ roots) :
    Agree paging k.mem ((k.setPmm k'.pmm).copyPage t (frame e)).mem 3 r lowerHalf := by
  refine Agree.of_tables fun f hf => update_of_ne ?_ _ _
  rintro rfl
  exact T.used f (mem_forest.2 ⟨r, hr, hf⟩) C.fresh

/-- the state between the copy and the store to the table -/
theorem Spaces.copying (h : Spaces k roots) (C : CowCopied k k' va.1 g e t) :
    (∀ r ∈ roots, Agree paging k.mem ((k.setPmm k'.pmm).copyPage t (frame e)).mem 3 r lowerHalf) ∧
      Spaces ((k.setPmm k'.pmm).copyPage t (frame e)) roots := by
  have hA := fun r (hr : r ∈ roots) => h.trees.copying C hr
  exact ⟨hA, h.agree hA C.draws fun f hf => C.counts h.trees.pmm hf⟩

/-- **A copied page keeps the spaces in order.** -/
theorem Spaces.copied (h : Spaces k roots) (hr : k.pml4 ∈ roots) (L : CowLeaf k va.1 g e)
    (C : CowCopied k k' va.1 g e t) : Spaces k' roots := by
  obtain ⟨hA, h1⟩ := h.copying C
  have ht40 := Pmm.lt_of_free C.fresh h.trees.phys
  have hfr := frame_copiedEntry ht40 e
  have hflags := copiedEntry_flags t e
  rw [C.state]
  refine h1.attach hr va.lower (L.path.agree va.lower (hA _ hr)) hflags.1 hflags.2.2 ?_ ?_ ?_ ?_
  · rw [hfr]
    exact C.draws.len ▸ (Pmm.mem_freeSet.1 C.fresh).1
  · rw [hfr]
    exact C.draws.taken_notMem_free (Finset.mem_singleton_self t)
  · rw [hfr, show paging.forest ((k.setPmm k'.pmm).copyPage t (frame e)).mem 3 roots lowerHalf =
      paging.forest k.mem 3 roots lowerHalf from List.flatMap_congr fun r hr => (hA r hr).tables]
    exact fun hc => h.trees.used t hc C.fresh
  · intro r hr' hc
    rw [hfr, frames, (hA r hr').leaves] at hc
    exact h.used r hr' t hc C.fresh

/-- **So does a page made writable in place.** -/
theorem Spaces.unmarked (h : Spaces k roots) (hr : k.pml4 ∈ roots) (L : CowLeaf k va.1 g e)
    (C : CowUnmarked k k' va.1 g e) : Spaces k' roots := by
  have hflags := unmarkedEntry_flags L.present L.user
  rw [C.state]
  refine h.repaint hr va.lower L.path ?_ hflags.1 hflags.2.2 ?_
  · rw [L.entry]
    exact L.present
  · rw [L.entry]
    exact frame_unmarkedEntry e

section Copied

variable (T : Trees k roots lowerHalf) (hr : k.pml4 ∈ roots) (L : CowLeaf k va.1 g e)
include T hr L

/-- the store to the table, once the copy is made -/
theorem Trees.copied_patch (C : CowCopied k k' va.1 g e t) :
    Patched paging ((k.setPmm k'.pmm).copyPage t (frame e)).mem k'.mem 3 roots lowerHalf (idx va.1) k.pml4 g := by
  have hA := fun r (hr : r ∈ roots) => T.copying C hr
  have P := patched_set (copiedEntry t e) (T.agree hA C.draws) lowerHalf_nodup hr va.lower
    (L.path.agree va.lower (hA _ hr))
  rw [C.state]
  exact P

/-- the leaf afterwards -/
theorem Trees.copied_walk
    (C : CowCopied k k' va.1 g e t) : paging.walk k'.mem 3 k.pml4 (idx va.1) = some (0, copiedEntry t e) := by
  have hw := (T.copied_patch hr L C).hit _ fun _ _ => rfl
  have hentry : k'.mem g (idx va.1 0) = copiedEntry t e := by rw [C.state, set_mem_self]
  rwa [hentry, paging_present, if_pos (copiedEntry_flags t e).1] at hw

theorem Trees.unmarked_walk
    (C : CowUnmarked k k' va.1 g e) : paging.walk k'.mem 3 k.pml4 (idx va.1) = some (0, unmarkedEntry e) := by
  have hw := walk_set (patched_set (unmarkedEntry e) T lowerHalf_nodup hr va.lower L.path) fun _ _ => rfl
  rw [if_pos (unmarkedEntry_flags L.present L.user).1] at hw
  rw [C.state]
  exact hw

end Copied

/-- **A copied page reads as before**, at every address of every space. -/
theorem Spaces.copied_view (h : Spaces k roots) (hr : k.pml4 ∈ roots) (L : CowLeaf k va.1 g e)
    (C : CowCopied k k' va.1 g e t) {r : ℕ} (hr' : r ∈ roots) (va' : UserAddr) :
    userByte k'.mem r va'.1 = userByte k.mem r va'.1 := by
  obtain ⟨hA, h1⟩ := h.copying C
  have h' := h.copied hr L C
  have ht40 := Pmm.lt_of_free C.fresh h.trees.phys
  rw [C.state] at h' ⊢
  rw [h1.view_set h' hr (L.path.agree va.lower (hA _ hr)) (copiedEntry_flags t e).1 hr' va']
  split_ifs with hhit
  · obtain ⟨rfl, hj⟩ := hhit
    rw [frame_copiedEntry ht40, show ((k.setPmm k'.pmm).copyPage t (frame e)).mem t = k.mem (frame e) from
      update_self .., h.view hr' va', walk_index hj, L.walk]
    rfl
  · refine h.view_agree h1 hr' (hA r hr') (fun f hf => update_of_ne ?_ _ _) va'
    rintro rfl
    exact h.used r hr' f hf C.fresh

/-- **So does a page made writable in place.** -/
theorem Spaces.unmarked_view (h : Spaces k roots) (hr : k.pml4 ∈ roots) (L : CowLeaf k va.1 g e)
    (C : CowUnmarked k k' va.1 g e) {r : ℕ} (hr' : r ∈ roots) (va' : UserAddr) :
    userByte k'.mem r va'.1 = userByte k.mem r va'.1 := by
  have h' := h.unmarked hr L C
  rw [C.state] at h' ⊢
  rw [h.view_set h' hr L.path (unmarkedEntry_flags L.present L.user).1 hr' va']
  split_ifs with hhit
  · obtain ⟨rfl, hj⟩ := hhit
    rw [frame_unmarkedEntry, h.view hr' va', walk_index hj, L.walk]
    rfl
  · rfl

end Handled

end Kern

end Uix
