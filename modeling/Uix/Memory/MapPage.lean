/-
New pages in a user space: `pmm_alloc` followed by `vmm_map`, as `user_task_create` and `do_execve` call them.

- `mapPage_spec`: the active space maps a page that was free at an address that was not mapped; all other walks, all
  other pages and the contents of the new page are as they were.
-/
import Uix.Memory.Spaces
import Uix.Memory.VmmMap

namespace Uix.Kern

open Machine Radix Radix.Format Bytes
open Pmm (pageIdx pageAddr Takes Draws)

/-- `p = pmm_alloc(); vmm_map(va, p, flags);`. Where `p` is not checked, page 0 is used as if it were a page. -/
def mapPage (k : Kern) (va flags : U64) : Except Stop (PAddr × Kern) := do
  let (p, k) ← k.pmmAlloc
  let k ← k.vmmMap va p flags
  if p = 0 then .error .wild else pure (p, k)

/-- flags of a user page -/
def UserFlags (flags : U64) : Prop := MapFlags flags ∧ has flags vmmUser = true

instance (flags : U64) : Decidable (UserFlags flags) := inferInstanceAs (Decidable (_ ∧ _))

/-- the leaf that `vmm_map` writes for page `t` -/
def pageEntry (t : ℕ) (flags : U64) : U64 := (pageAddr t &&& pteMask) ||| flags

section Entry

variable {t : ℕ} {flags : U64}

theorem pageEntry_has (t : ℕ) {f : U64} (h : has flags f = true) : has (pageEntry t flags) f = true := by
  rw [pageEntry, has_or, h, Bool.or_true]

theorem frame_pageEntry_of_mask (ht : t < 2 ^ 40) (hf : flags &&& pteMask = 0) : frame (pageEntry t flags) = t := by
  have h : flags >>> 12 &&& 0xFFFFFFFFFF#64 = 0 := by
    calc flags >>> 12 &&& 0xFFFFFFFFFF#64
        = (flags &&& pteMask) >>> 12 := by rw [BitVec.ushiftRight_and_distrib]; rfl
      _ = 0 := by rw [hf]; rfl
  rw [pageEntry, frame_or h, pageAddr_and_mask ht, frame_pageAddr ht]

theorem frame_pageEntry (ht : t < 2 ^ 40) (hf : MapFlags flags) : frame (pageEntry t flags) = t :=
  frame_pageEntry_of_mask ht hf.mask

end Entry

/-- `k'` is `k` with the page `t` mapped at `va` in the active space, and tables for it; the pages `S` were taken -/
structure PageMapped (k k' : Kern) (roots : List ℕ) (va : UserAddr) (flags : U64) (t : ℕ) (S : Finset ℕ) : Prop where
  takes : Takes k.pmm S k'.pmm
  page : t ∈ S
  few : S.card ≤ 4
  regs : SameRegs k k'
  spaces : Spaces k' roots
  absent : paging.walk k.mem 3 k.pml4 (idx va.1) = none
  hit : ∀ y : ℕ → Fin 512, (∀ j ≤ 3, y j = idx va.1 j) →
    paging.walk k'.mem 3 k.pml4 y = some (0, pageEntry t flags)
  miss : ∀ r ∈ roots, ∀ y : ℕ → Fin 512, y 3 ∈ lowerHalf → (r ≠ k.pml4 ∨ ∃ j ≤ 3, y j ≠ idx va.1 j) →
    paging.walk k'.mem 3 r y = paging.walk k.mem 3 r y
  leaves : ∃ a b, paging.leaves k.mem 3 k.pml4 lowerHalf = a ++ b ∧
    paging.leaves k'.mem 3 k.pml4 lowerHalf = a ++ [(0, pageEntry t flags)] ++ b
  others : ∀ r ∈ roots, r ≠ k.pml4 → paging.leaves k'.mem 3 r lowerHalf = paging.leaves k.mem 3 r lowerHalf
  contents : k'.mem t = k.mem t
  sub : ∀ g ∈ paging.forest k'.mem 3 roots lowerHalf, g ∈ paging.forest k.mem 3 roots lowerHalf ∨ g ∈ S
  outside : ∀ f, f ∉ S → f ∉ paging.forest k.mem 3 roots lowerHalf → k'.mem f = k.mem f
  upper : ∀ r ∈ roots, ∀ i, i ∉ lowerHalf → k'.mem r i = k.mem r i

/-- why mapping a page may stop: too few pages, or the address is mapped -/
def MapStop (k : Kern) (va : U64) (st : Stop) : Prop :=
  ((st = .panic .vmmOomTables ∨ st = .wild) ∧ k.pmm.freeSet.card < 4) ∨
    ((st = .panic .vmmRemap ∨ st = .wild) ∧ paging.walk k.mem 3 k.pml4 (idx va) ≠ none)

theorem vmmMap_mapped {k : Kern} {roots : List ℕ} {va : UserAddr} {flags : U64} {t : ℕ} {p : Pmm} (h : Spaces k roots)
    (hr : k.pml4 ∈ roots) (hf : UserFlags flags) (ht : t ∈ k.pmm.freeSet) (hT : Takes k.pmm {t} p) :
    Meets ((k.setPmm p).vmmMap va.1 (pageAddr t) flags) (MapStop k va.1)
      fun k' => ∃ S, PageMapped k k' roots va flags t S := by
  have ht40 := Pmm.lt_of_free ht h.trees.phys
  have hcounts : p.counts = k.pmm.counts := by rw [Pmm.counts, hT.refs, Pmm.counts]
  have h0 : Spaces (k.setPmm p) roots :=
    h.agree (fun _ _ => Agree.of_tables fun _ _ => rfl) hT.draws fun f hf => hcounts ▸ hf
  refine (vmmMap_spec (pageAddr t) flags h0.trees lowerHalf_nodup hr va.lower).mono ?_ ?_
  · rintro st (⟨hst, hcard⟩ | ⟨hst, hw⟩)
    · refine .inl ⟨.inl hst, ?_⟩
      rw [setPmm_pmm, hT.free] at hcard
      have := Finset.le_card_sdiff {t} k.pmm.freeSet
      rw [Finset.card_singleton] at this
      omega
    · exact .inr ⟨hst.symm, hw⟩
  · rintro k' ⟨hnone, k1, S, g, hS, G, hat, habs, rfl⟩
    set e := pageEntry t flags with he
    have hp : has e vmmPresent = true := pageEntry_has t hf.1.2
    have hu : has e vmmUser = true := pageEntry_has t hf.2
    have hfr : frame e = t := frame_pageEntry ht40 hf.1
    have htS : t ∉ S := fun hc => by
      have := G.takes.sub hc
      rw [setPmm_pmm, hT.free, Finset.mem_sdiff, Finset.mem_singleton] at this
      exact this.2 rfl
    have h1 : Spaces k1 roots := h0.grown G
    have hforest : t ∉ paging.forest k1.mem 3 roots lowerHalf := fun hc => by
      rcases G.sub t hc with hc | hc
      · exact h.trees.used t hc ht
      · exact htS hc
    have hg : g ∈ paging.forest k1.mem 3 roots lowerHalf := mem_forest.2 ⟨_, hr, hat.mem_tables va.lower⟩
    have hframes : ∀ r ∈ roots, t ∉ frames k1.mem r := fun r hr' hc => by
      rw [frames, G.leaves r hr'] at hc
      exact h.used r hr' t hc ht
    have hTaken : Takes k.pmm ({t} ∪ S) k1.pmm := hT.trans G.takes
    have h2 : Spaces (k1.set g (idx va.1 0) e) roots := by
      refine h1.attach hr va.lower hat hp hu ?_ ?_ (by rwa [hfr]) (by rwa [hfr])
      · rw [hfr, hTaken.len]
        exact (Pmm.mem_freeSet.1 ht).1
      · rw [hfr]
        exact hTaken.draws.taken_notMem_free (Finset.mem_union_left _ (Finset.mem_singleton_self t))
    have P := patched_set e h1.trees lowerHalf_nodup hr va.lower hat
    refine ⟨{t} ∪ S, ?_⟩
    constructor
    case takes => exact hTaken
    case page => exact Finset.mem_union_left _ (Finset.mem_singleton_self t)
    case few =>
      have := Finset.card_union_le {t} S
      rw [Finset.card_singleton] at this
      omega
    case regs => exact G.regs
    case spaces => exact h2
    case absent => exact hnone
    case hit =>
      intro y hy
      have := walk_set P hy
      rwa [if_pos hp] at this
    case miss =>
      intro r hr' y hy hne
      rw [← show paging.walk k1.mem 3 r y = paging.walk k.mem 3 r y from G.walk r hr' y hy]
      exact P.miss r hr' y hy hne
    case leaves =>
      obtain ⟨a, b, hold, hnew⟩ := P.leaves
      rw [leafOf, if_neg (by rw [paging_present]; exact Bool.eq_false_iff.1 habs), List.append_nil,
        G.leaves _ hr] at hold
      rw [set_mem_self, leafOf, if_pos (show paging.present e = true from hp)] at hnew
      exact ⟨a, b, hold, hnew⟩
    case others =>
      intro r hr' hne
      exact (P.others r hr' hne).trans (G.leaves r hr')
    case contents =>
      rw [set_mem_of_ne _ _ _ fun hc => hforest (by rw [hc]; exact hg)]
      exact G.outside t htS fun hc => h.trees.used t hc ht
    case sub =>
      intro g' hg'
      have hg1 : g' ∈ paging.forest k1.mem 3 roots lowerHalf := P.forest ▸ hg'
      exact (G.sub g' hg1).imp_right fun hS' => Finset.mem_union_right _ hS'
    case outside =>
      intro f hfS hff
      rw [Finset.mem_union, not_or] at hfS
      rw [set_mem_of_ne]
      · exact G.outside f hfS.2 hff
      · rintro rfl
        rcases G.sub f hg with hc | hc
        · exact hff hc
        · exact hfS.2 hc
    case upper =>
      intro r hr' i hi
      exact (P.root r hr' i hi).trans (G.rest r hr' i hi)

/-- **A new page in the active space.** -/
theorem mapPage_spec {k : Kern} {roots : List ℕ} {va : UserAddr} {flags : U64} (h : Spaces k roots)
    (hr : k.pml4 ∈ roots) (hf : UserFlags flags) :
    Meets (k.mapPage va.1 flags) (MapStop k va.1)
      fun r => ∃ t S, r.1 = pageAddr t ∧ t ∈ k.pmm.freeSet ∧ PageMapped k r.2 roots va flags t S := by
  unfold mapPage
  refine meets_alloc h.trees.pmm (fun hnone => ?_) fun t p ht h0 hT => ?_
  · -- no page is left: the tables cannot be built, or page 0 is mapped
    have hcard : k.pmm.freeSet.card < 4 := by rw [hnone]; decide
    refine ((vmmMap_spec 0 flags h.trees lowerHalf_nodup hr va.lower).mono ?_ fun _ _ => trivial).bind fun k' _ =>
      meets_error (.inl ⟨.inr rfl, hcard⟩)
    rintro st (⟨hst, -⟩ | ⟨hst, hw⟩)
    · exact .inl ⟨.inl hst, hcard⟩
    · exact .inr ⟨hst.symm, hw⟩
  · refine (vmmMap_mapped h hr hf ht hT).bind ?_
    rintro k' ⟨S, M⟩
    rw [if_neg h0]
    exact meets_ok ⟨t, S, rfl, ht, M⟩

end Uix.Kern
