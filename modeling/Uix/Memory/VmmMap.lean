/-
`vmm_map`, `vmm_unmap` and `vmm_translate` as a finite map from virtual pages to frames.

- `vmm_finite_map`: after `vmm_map(va, pa, flags)` the address translates to `pa`, every other page translates as
  before, the tables are a tree of used pages again, and `vmm_unmap(va)` brings the old translation back. "Other" means
  a difference below bit 48: the four indices read the bits 12 .. 47 of an address and no more.
- `map_seen_at_alias`: an address that differs from `va` in bit 48 only is translated too.
-/
import Uix.Memory.VmmSpec

namespace Uix

open Machine Radix Radix.Format List
open Pmm (pageIdx pageAddr)

namespace Kern

/-! ## Page-aligned words -/

theorem mod_of_aligned {a : U64} (h : a &&& 0xFFF#64 = 0) : a.toNat % 2 ^ 12 = 0 := by
  have := congrArg BitVec.toNat h
  rw [BitVec.toNat_and] at this
  rwa [← Nat.and_two_pow_sub_one_eq_mod]

theorem eq_pageAddr_of_aligned {a : U64} (h : a &&& 0xFFF#64 = 0) : a = pageAddr (pageIdx a) := by
  have h0 := mod_of_aligned h
  have hlt : a.toNat < 2 ^ 64 := a.isLt
  apply BitVec.eq_of_toNat_eq
  simp only [pageAddr, pageIdx, BitVec.toNat_shiftLeft, BitVec.toNat_ofNat, BitVec.toNat_ushiftRight,
    Nat.shiftRight_eq_div_pow, Nat.shiftLeft_eq]
  omega

theorem and_mask_of_aligned {a : U64} (h : a &&& 0xFFF#64 = 0) (hlt : a.toNat < 2 ^ 52) : a &&& pteMask = a := by
  have hi : pageIdx a < 2 ^ 40 := by
    simp only [pageIdx, BitVec.toNat_ushiftRight, Nat.shiftRight_eq_div_pow]
    omega
  rw [eq_pageAddr_of_aligned h, pageAddr_and_mask hi]

/-- addresses that differ below bit 48 take different walks -/
theorem exists_idx_ne {va va' : U64} (h : va &&& 0xFFF#64 = 0) (h' : va' &&& 0xFFF#64 = 0)
    (hne : va'.setWidth 48 ≠ va.setWidth 48) : ∃ j ≤ 3, idx va' j ≠ idx va j := by
  by_contra hc
  push Not at hc
  have hpage := (indices_eq_iff va' va).1 hc
  apply hne
  have h1 := mod_of_aligned h
  have h2 := mod_of_aligned h'
  apply BitVec.eq_of_toNat_eq
  simp only [BitVec.toNat_setWidth]
  omega

/-! ## The finite map -/

/-- a combination of the flags of `vmm.h` with `VMM_PRESENT` in it -/
def MapFlags (flags : U64) : Prop :=
  flags &&& ~~~ (vmmPresent ||| vmmWrite.setWidth 64 ||| vmmUser ||| vmmNoexec) = 0 ∧ has flags vmmPresent = true

instance (flags : U64) : Decidable (MapFlags flags) := inferInstanceAs (Decidable (_ ∧ _))

theorem MapFlags.mask {flags : U64} (h : MapFlags flags) : flags &&& pteMask = 0 := by
  calc flags &&& pteMask
      = (flags &&& ~~~ (vmmPresent ||| vmmWrite.setWidth 64 ||| vmmUser ||| vmmNoexec)) &&& pteMask := by
        rw [BitVec.and_assoc]; rfl
    _ = 0 := by rw [h.1]; rfl

/-- the entry `vmm_map` writes leads to the page it was given -/
theorem target_mapped {pa flags va : U64} (hpa : pa &&& 0xFFF#64 = 0) (hlt : pa.toNat < 2 ^ 52) (hf : MapFlags flags) :
    target va (0, (pa &&& pteMask) ||| flags) = pa := by
  rw [target, and_mask_of_aligned hpa hlt, BitVec.and_or_distrib_right, hf.mask, and_mask_of_aligned hpa hlt]
  exact BitVec.or_zero

/-- **`vmm_map`, `vmm_unmap` and `vmm_translate` are a finite map** on virtual pages told apart by the bits below 48. -/
theorem vmm_finite_map (k : Kern) (va pa flags : U64) (T : Trees k [k.pml4] (List.finRange 512))
    (hva : va &&& 0xFFF#64 = 0) (hpa : pa &&& 0xFFF#64 = 0) (hlt : pa.toNat < 2 ^ 52) (hf : MapFlags flags)
    (hnone : paging.walk k.mem 3 k.pml4 (idx va) = none) (hfree : 3 ≤ k.pmm.freeSet.card) :
    ∃ k1, k.vmmMap va pa flags = .ok k1 ∧ k1.vmmTranslate va = some pa ∧
      (∀ va', va' &&& 0xFFF#64 = 0 → va'.setWidth 48 ≠ va.setWidth 48 → k1.vmmTranslate va' = k.vmmTranslate va') ∧
      Trees k1 [k1.pml4] (List.finRange 512) ∧
      ∃ k2, k1.vmmUnmap va = .ok k2 ∧ ∀ va', va' &&& 0xFFF#64 = 0 → k2.vmmTranslate va' = k.vmmTranslate va' := by
  have hr : k.pml4 ∈ [k.pml4] := List.mem_singleton_self _
  have hall : ∀ i, i ∈ List.finRange 512 := List.mem_finRange
  have his := List.nodup_finRange 512
  obtain ⟨k', hrun, -, k1, S, g, -, G, hat, -, rfl⟩ :=
    (vmmMap_spec pa flags T his hr (hall _)).exists_ok fun e he => by
      rcases he with ⟨-, he⟩ | ⟨-, he⟩
      · omega
      · exact he hnone
  set e := (pa &&& pteMask) ||| flags
  have hpres : has e vmmPresent = true := by rw [has_or, hf.2, Bool.or_true]
  have P := patched_set e G.trees his hr (hall _) hat
  have hent : (k1.set g (ptIdx va) e).mem g (ptIdx va) = e := set_mem_self ..
  have hreg : (k1.set g (ptIdx va) e).pml4 = k.pml4 := G.regs.1
  refine ⟨k1.set g (ptIdx va) e, hrun, ?_, ?_, ?_, (k1.set g (ptIdx va) e).set g (ptIdx va) 0, ?_, ?_⟩
  · rw [vmmTranslate_eq, hreg]
    have := walk_set P fun _ _ => rfl
    rw [if_pos hpres] at this
    exact (congrArg _ this).trans (by rw [Option.map_some, target_mapped hpa hlt hf])
  · intro va' h' hne
    rw [vmmTranslate_eq, vmmTranslate_eq, hreg, ← G.walk _ hr _ (hall _)]
    exact congrArg _ (P.miss _ hr _ (hall _) (.inr (exists_idx_ne hva h' hne)))
  · rw [hreg]
    exact G.trees.set P
  · apply vmmUnmap_spec
    · rw [hreg]
      exact P.path
    · rw [hent, hpres]
  · intro va' _
    have P2 := patched_set 0 (G.trees.set P) his hr (hall _) P.path
    rw [vmmTranslate_eq, vmmTranslate_eq, show ((k1.set g (ptIdx va) e).set g (ptIdx va) 0).pml4 = k.pml4 from hreg]
    congr 1
    -- the walks that end at the entry find it absent, as before; the others never see it
    by_cases hsame : ∀ j ≤ 3, idx va' j = idx va j
    · have := walk_set P2 hsame
      rw [zero_has, if_neg (by decide)] at this
      exact this.trans (by rw [walk_index hsame, hnone])
    · push Not at hsame
      exact (P2.miss _ hr _ (hall _) (.inr hsame)).trans
        ((P.miss _ hr _ (hall _) (.inr hsame)).trans (G.walk _ hr _ (hall _)))

/-! ## An instance, and the addresses beyond bit 47 -/

/-- an empty PML4 in page 1, pages 2 .. 63 free -/
def blank : Kern := ⟨fun _ _ => 0, Pmm.fresh 64 2 none, 1, pageAddr 1, pageAddr 1⟩

theorem blank_absent (f : ℕ) (i : Fin 512) : paging.present (blank.mem f i) = false := by
  rw [paging_present, show blank.mem f i = 0 from rfl, zero_has]

theorem blank_trees : Trees blank [1] (finRange 512) := by
  have hforest : paging.forest blank.mem 3 [1] (finRange 512) = [1] := by
    have : (finRange 512).flatMap (paging.tablesAt blank.mem 3 1) = [] :=
      flatMap_eq_nil_iff.2 fun i _ => gather_absent (blank_absent 1 i)
    rw [forest, flatMap_singleton, Format.tables, this]
  refine ⟨Pmm.fresh_ok none (by decide) (by decide) (by decide) (by decide), by decide, ?_, ?_, ?_⟩
  · rw [hforest]; exact nodup_singleton 1
  · rw [hforest]; simp [blank, Pmm.fresh]
  · rw [hforest]
    intro g hg
    rw [mem_singleton.1 hg, show blank.pmm = Pmm.fresh 64 2 none from rfl, Pmm.freeSet_fresh _ _ (by decide)]
    decide

theorem blank_card : 3 ≤ blank.pmm.freeSet.card := by
  rw [show blank.pmm = Pmm.fresh 64 2 none from rfl, Pmm.freeSet_fresh _ _ (by decide)]
  decide

theorem vmm_finite_map_blank : ∃ k1, blank.vmmMap 0x400000#64 0x5000#64 7#64 = .ok k1 ∧
    k1.vmmTranslate 0x400000#64 = some 0x5000#64 := by
  obtain ⟨k1, h1, h2, -⟩ := vmm_finite_map blank 0x400000#64 0x5000#64 7#64 blank_trees (by decide) (by decide)
    (by decide) (by decide) (walk_absent (blank_absent _ _)) blank_card
  exact ⟨k1, h1, h2⟩

/-- **An alias is translated too**: 2^48 + 0x400000 is page-aligned, different from 0x400000 and not mapped before, and
`vmm_map(0x400000, ...)` maps it. -/
theorem map_seen_at_alias : ∃ k1, Trees blank [blank.pml4] (List.finRange 512) ∧ 3 ≤ blank.pmm.freeSet.card ∧
    paging.walk blank.mem 3 blank.pml4 (idx 0x400000#64) = none ∧ MapFlags 7#64 ∧
    blank.vmmMap 0x400000#64 0x5000#64 7#64 = .ok k1 ∧
    (0x1000000400000#64 ≠ 0x400000#64 ∧ 0x1000000400000#64 &&& 0xFFF#64 = 0#64) ∧
    blank.vmmTranslate 0x1000000400000#64 = none ∧ k1.vmmTranslate 0x1000000400000#64 = some 0x5000#64 := by
  have hnone : paging.walk blank.mem 3 blank.pml4 (idx 0x400000#64) = none := walk_absent (blank_absent _ _)
  have hr : blank.pml4 ∈ [1] := List.mem_singleton_self _
  obtain ⟨k', hrun, -, k1, S, g, -, G, hat, -, rfl⟩ :=
    (vmmMap_spec 0x5000#64 7#64 blank_trees (List.nodup_finRange 512) hr (List.mem_finRange _)).exists_ok
      fun e he => by
        rcases he with ⟨-, he⟩ | ⟨-, he⟩
        · exact absurd blank_card (by omega)
        · exact he hnone
  refine ⟨_, blank_trees, blank_card, hnone, by decide, hrun, by decide, ?_, ?_⟩
  · rw [vmmTranslate_eq, walk_absent (blank_absent _ _)]
    rfl
  · have P := patched_set ((0x5000#64 &&& pteMask) ||| 7#64) G.trees (List.nodup_finRange 512) hr
      (List.mem_finRange _) hat
    have hit := walk_set (y := idx 0x1000000400000#64) P fun j hj => by interval_cases j <;> rfl
    have hreg : (k1.set g (ptIdx 0x400000#64) ((0x5000#64 &&& pteMask) ||| 7#64)).pml4 = blank.pml4 := G.regs.1
    rw [vmmTranslate_eq, hreg]
    exact (congrArg _ hit).trans (by decide)

end Kern

end Uix
