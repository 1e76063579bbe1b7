/-
The teardown in `do_execve` against the construction of a space: `vmm_create_space`, then pages from `pmm_alloc`, each
mapped once by `vmm_map` in the user half.

The pages taken since before the construction are at every moment in one of three places: a table of the space, a page
that it maps, or a page taken and not mapped yet. The teardown gives back the first two kinds.

- `Ledger`: the account of the pages taken, along the construction.
- `Ledger.alloc`, `Ledger.map`: what a step moves. A mapping without `VMM_PRESENT` moves nothing but builds tables.
- `Ledger.teardown`: all pages but those not mapped are free again, each given back once.
- `teardown_inverts`: with `VMM_PRESENT` in all flags nothing is left.
-/
import Uix.Cpu.Teardown
import Uix.Memory.Filling

namespace Uix.Kern

open Machine Radix Radix.Format List
open Pmm (pageIdx pageAddr Takes)

/-! ## The construction -/

/-- flags of an entry that is present and leads to the page it was given -/
def PageFlags (flags : U64) : Prop := has flags vmmPresent = true ∧ flags &&& pteMask = 0

instance (flags : U64) : Decidable (PageFlags flags) := inferInstanceAs (Decidable (_ ∧ _))

/-- pages taken and mapped, with the pages that wait to be mapped: `vmm_map` is called at user addresses, for each page
once, with flags of the given kind -/
inductive Builds (P : U64 → Prop) (k : Kern) : Kern → List ℕ → Prop
  | start : Builds P k k []
  | alloc {k' k'' : Kern} {pool : List ℕ} {pa : PAddr} : Builds P k k' pool → k'.pmmAlloc = .ok (pa, k'') →
      pa ≠ 0 → Builds P k k'' (pageIdx pa :: pool)
  | map {k' k'' : Kern} {pool : List ℕ} {t : ℕ} {va : UserAddr} {flags : U64} : Builds P k k' pool → t ∈ pool →
    P flags →
      k'.vmmMap va.1 (pageAddr t) flags = .ok k'' → Builds P k k'' (pool.erase t)

/-- the account of the pages that were free in `p` and are not now: tables of the active space, pages it maps, and the
pages `pool` -/
structure Ledger (p : Pmm) (r : ℕ) (k : Kern) (pool : List ℕ) : Prop where
  active : k.pml4 = r
  trees : Trees k [r] lowerHalf
  plain : ∀ q ∈ paging.leaves k.mem 3 r lowerHalf, q.1 = 0
  nodup : (frames k.mem r ++ pool).Nodup
  apart : ∀ f ∈ frames k.mem r ++ pool, f ∉ paging.tables k.mem 3 r lowerHalf
  used : ∀ f ∈ frames k.mem r ++ pool, f ∉ k.pmm.freeSet
  taken : ∀ g, g ∈ p.freeSet ↔ g ∈ k.pmm.freeSet ∨ g ∈ paging.tables k.mem 3 r lowerHalf ∨ g ∈ frames k.mem r ++ pool
  len : k.pmm.bitmapLen = p.bitmapLen
  refs : k.pmm.refcounts = p.refcounts

section Ledger

variable {p : Pmm} {r : ℕ} {k k' : Kern} {pool : List ℕ} {t : ℕ} {va : UserAddr} {flags : U64}

theorem mem_forest_single {m : PhysMem} {g : ℕ} {is : List (Fin 512)} :
    g ∈ paging.forest m 3 [r] is ↔ g ∈ paging.tables m 3 r is := by
  rw [forest, flatMap_singleton]

/-- the pages of the account are pages of memory -/
theorem Ledger.inside (h : Ledger p r k pool) {f : ℕ} (hf : f ∈ frames k.mem r ++ pool) : f < k.pmm.bitmapLen := by
  rw [h.len]
  exact (Pmm.mem_freeSet.1 ((h.taken f).2 (.inr (.inr hf)))).1

/-- a new space, before anything is mapped -/
theorem SpaceCreated.ledger {d : ℕ} (C : SpaceCreated k k' d) (hphys : k.pmm.bitmapLen ≤ 2 ^ 40) :
    Ledger k.pmm d (k'.vmmSwitch (pageAddr d)) [] := by
  obtain ⟨F, hroot⟩ := C.freshSpace hphys
  obtain ⟨ht, hl, -⟩ := empty_space F.lower
  have hT := F.filling.spaces.trees
  rw [hroot] at ht hl hT
  have hfr : frames (k'.vmmSwitch (pageAddr d)).mem d = [] := by rw [frames, hl, map_nil]
  refine ⟨hroot, hT, ?_, ?_, ?_, ?_, ?_, C.takes.len, C.takes.refs⟩
  · rw [hl]
    exact fun q hq => absurd hq not_mem_nil
  · rw [hfr]
    exact nodup_nil
  · rw [hfr]
    exact fun f hf => absurd hf not_mem_nil
  · rw [hfr]
    exact fun f hf => absurd hf not_mem_nil
  · intro g
    rw [ht, hfr, show (k'.vmmSwitch (pageAddr d)).pmm = k'.pmm from rfl, C.takes.free, Finset.mem_sdiff,
      Finset.mem_singleton, mem_singleton, nil_append]
    constructor
    · intro hg
      by_cases hgd : g = d
      · exact .inr (.inl hgd)
      · exact .inl ⟨hg, hgd⟩
    · rintro (hg | rfl | hg)
      · exact hg.1
      · exact C.fresh
      · exact absurd hg not_mem_nil

/-- **A page taken** waits to be mapped. -/
theorem Ledger.alloc {pa : PAddr} (h : Ledger p r k pool) (hrun : k.pmmAlloc = .ok (pa, k')) (h0 : pa ≠ 0) :
    Ledger p r k' (pageIdx pa :: pool) := by
  obtain ⟨q, rfl, hfree, hT⟩ : ∃ q, k' = k.setPmm q ∧ pageIdx pa ∈ k.pmm.freeSet ∧ Takes k.pmm {pageIdx pa} q := by
    obtain ⟨pa', q, hq, hcase⟩ := Pmm.pmmAlloc_spec h.trees.pmm
    rw [Kern.pmmAlloc, hq] at hrun
    obtain ⟨rfl, rfl⟩ := Prod.mk.inj (Except.ok.inj hrun)
    rcases hcase with ⟨rfl, -, -⟩ | ⟨t, ht, rfl, hT⟩
    · exact absurd rfl h0
    · have ht52 := Pmm.lt_of_free ht h.trees.pmm.small
      rw [Pmm.pageIdx_pageAddr ht52]
      exact ⟨q, rfl, ht, hT⟩
  generalize pageIdx pa = t at hfree hT
  have hfresh : t ∉ frames k.mem r ++ pool := fun hc => h.used t hc hfree
  have hmem : ∀ f, f ∈ frames k.mem r ++ t :: pool ↔ f = t ∨ f ∈ frames k.mem r ++ pool := fun f => by
    rw [perm_middle.mem_iff, mem_cons]
  refine ⟨h.active, h.trees.agree (fun r _ => Agree.of_tables fun _ _ => rfl) hT.draws, h.plain, ?_, ?_, ?_, ?_,
    hT.len.trans h.len, hT.refs.trans h.refs⟩
  · exact perm_middle.nodup_iff.2 (nodup_cons.2 ⟨hfresh, h.nodup⟩)
  · intro f hf
    rcases (hmem f).1 hf with rfl | hf
    · exact fun hc => h.trees.used f (mem_forest_single.2 hc) hfree
    · exact h.apart f hf
  · intro f hf
    rw [setPmm_pmm, hT.free, Finset.mem_sdiff, Finset.mem_singleton]
    rcases (hmem f).1 hf with rfl | hf
    · exact fun hc => hc.2 rfl
    · exact fun hc => h.used f hf hc.1
  · intro g
    rw [h.taken, setPmm_pmm, hT.free, Finset.mem_sdiff, Finset.mem_singleton, setPmm_mem, hmem]
    by_cases hg : g = t
    · rw [hg]
      exact iff_of_true (.inl hfree) (.inr (.inr (.inl rfl)))
    · rw [and_iff_left hg, or_iff_right hg]

theorem has_pageEntry_present : has (pageEntry t flags) vmmPresent = has flags vmmPresent := by
  rw [pageEntry, has_or, has_and, show pteMask &&& vmmPresent = 0 by decide, has_zero, Bool.false_or]

/-- the pages mapped and the pages that wait are the same pages together -/
theorem frames_entered {g : ℕ} {x : ℕ → Fin 512} (ht : t ∈ pool) (ht40 : t < 2 ^ 40) (hmask : flags &&& pteMask = 0)
    (habs : has (k.mem g (x 0)) vmmPresent = false)
    (P : Patched paging k.mem (k.set g (x 0) (pageEntry t flags)).mem 3 [r] lowerHalf x r g) :
    (frames (k.set g (x 0) (pageEntry t flags)).mem r ++ if has flags vmmPresent then pool.erase t else pool).Perm
      (frames k.mem r ++ pool) := by
  obtain ⟨pre, post, h1, h2⟩ := P.leaves
  rw [leafOf, paging_present, habs, if_neg (by decide), append_nil] at h1
  rw [set_mem_self, leafOf, paging_present, has_pageEntry_present] at h2
  cases hp : has flags vmmPresent with
  | false =>
    rw [hp, if_neg (by decide), append_nil, ← h1] at h2
    rw [frames, h2, if_neg (by decide), frames]
  | true =>
    rw [hp, if_pos rfl] at h2
    have hframes : (frames (k.set g (x 0) (pageEntry t flags)).mem r).Perm (t :: frames k.mem r) := by
      rw [frames, h2, frames, h1]
      simp only [map_append, map_cons, frame_pageEntry_of_mask ht40 hmask, append_assoc,
        singleton_append]
      exact perm_middle
    rw [if_pos rfl]
    exact (hframes.append_right _).trans (perm_middle.symm.trans ((perm_cons_erase ht).symm.append_left _))

/-- **A page mapped** leaves the pages that wait if its entry is present. -/
theorem Ledger.map (h : Ledger p r k pool) (ht : t ∈ pool) (hmask : flags &&& pteMask = 0)
    (hrun : k.vmmMap va.1 (pageAddr t) flags = .ok k') :
    Ledger p r k' (if has flags vmmPresent then pool.erase t else pool) := by
  obtain rfl := h.active
  have hr := mem_singleton_self k.pml4
  have ht40 : t < 2 ^ 40 := lt_of_lt_of_le (h.inside (mem_append_right _ ht)) h.trees.phys
  obtain ⟨-, k1, S, g, -, G, hat, habs, rfl⟩ := (vmmMap_spec _ _ h.trees lowerHalf_nodup hr va.lower).of_eq hrun
  change Ledger p k.pml4 (k1.set g (idx va.1 0) (pageEntry t flags)) _
  have P := patched_set (pageEntry t flags) G.trees lowerHalf_nodup hr va.lower hat
  have hperm := frames_entered ht ht40 hmask habs P
  rw [show frames k1.mem k.pml4 = frames k.mem k.pml4 by rw [frames, G.leaves _ hr, frames]] at hperm
  have htables : ∀ f, f ∈ paging.tables (k1.set g (idx va.1 0) (pageEntry t flags)).mem 3 k.pml4 lowerHalf ↔
      f ∈ paging.tables k.mem 3 k.pml4 lowerHalf ∨ f ∈ S := by
    intro f
    rw [P.tables _ hr, ← mem_forest_single, ← mem_forest_single]
    exact ⟨G.sub f, G.sup f⟩
  have hS : ∀ f ∈ frames k.mem k.pml4 ++ pool, f ∉ S := fun f hf hc => h.used f hf (G.takes.sub hc)
  refine ⟨G.regs.1, G.trees.set P, ?_, hperm.nodup_iff.2 h.nodup, ?_, ?_, ?_, G.takes.len.trans h.len,
    G.takes.refs.trans h.refs⟩
  · intro q hq
    rcases leaf_written P hq with hq | rfl
    · rw [G.leaves _ hr] at hq
      exact h.plain q hq
    · rfl
  · intro f hf
    rw [htables]
    have hf := hperm.mem_iff.1 hf
    exact fun hc => hc.elim (h.apart f hf) (hS f hf)
  · intro f hf
    rw [show (k1.set g (idx va.1 0) (pageEntry t flags)).pmm = k1.pmm from rfl, G.takes.free, Finset.mem_sdiff]
    exact fun hc => h.used f (hperm.mem_iff.1 hf) hc.1
  · intro f
    rw [show (k1.set g (idx va.1 0) (pageEntry t flags)).pmm = k1.pmm from rfl, htables, hperm.mem_iff, h.taken,
      G.takes.free, Finset.mem_sdiff]
    by_cases hf : f ∈ S
    · exact iff_of_true (.inl (G.takes.sub hf)) (.inr (.inl (.inr hf)))
    · rw [and_iff_left hf, or_iff_left hf]

/-- **The teardown gives back all but the pages that wait**, each once. -/
theorem Ledger.teardown {cr3 : PAddr} (h : Ledger p (pageIdx cr3) k pool) (hp : p.Ok) (harray : p.refcounts ≠ none)
    (hcounts : ∀ f ∈ frames k.mem (pageIdx cr3), k.pmm.counts f = 0) :
    ∃ k', Kern.teardown cr3 k = .ok k' ∧ (∀ g, g ∈ k'.pmm.freeSet ↔ g ∈ p.freeSet ∧ g ∉ pool) ∧
      ∃ l, k'.pmm.freed = l ++ k.pmm.freed ∧
        l.Perm (paging.tables k.mem 3 (pageIdx cr3) lowerHalf ++ frames k.mem (pageIdx cr3)) := by
  have hr : pageIdx cr3 ∈ [pageIdx cr3] := mem_singleton_self _
  have hpages : ∀ f ∈ frames k.mem (pageIdx cr3), f ∈ frames k.mem (pageIdx cr3) ++ pool := fun f hf =>
    mem_append_left _ hf
  have hne : ∀ g, g ∈ paging.tables k.mem 3 (pageIdx cr3) lowerHalf ∨ g ∈ frames k.mem (pageIdx cr3) → g ≠ 0 := by
    rintro g hg rfl
    exact hp.zero ((h.taken 0).2 (.inr (hg.imp_right (hpages 0))))
  have hcr0 : cr3 ≠ 0 := by
    rintro rfl
    exact hne 0 (.inl mem_cons_self) rfl
  have hlone : ∀ f ∈ frames k.mem (pageIdx cr3), k.pmm.Lone f := fun f hf =>
    ⟨by rw [h.refs]; exact harray, by rw [hcounts f hf]; exact Nat.zero_le 1⟩
  have hown := nodup_append.1 h.nodup
  obtain ⟨q, hrun, F⟩ := h.trees.teardown hr hcr0 h.plain hown.1 (fun f hf => h.apart f (hpages f hf))
    (fun f hf => h.inside (hpages f hf)) (fun f hf => h.used f (hpages f hf)) (fun g hg => hne g (.inl hg))
    (fun g hg => hne g (.inr hg))
  refine ⟨_, hrun, fun g => ?_, ?_⟩
  · rw [setPmm_pmm, F.free, h.taken, mem_append]
    constructor
    · rintro (hg | hg | hg)
      · exact ⟨.inl hg, fun hc => h.used g (mem_append_right _ hc) hg⟩
      · exact ⟨.inr (.inl hg), fun hc => h.apart g (mem_append_right _ hc) hg⟩
      · exact ⟨.inr (.inr (.inl hg.1)), fun hc => hown.2.2 g hg.1 g hc rfl⟩
    · rintro ⟨hg | hg | hg | hg, hpool⟩
      · exact .inl hg
      · exact .inr (.inl hg)
      · exact .inr (.inr ⟨hg, hlone g hg⟩)
      · exact absurd hg hpool
  · obtain ⟨l, hl, hmem⟩ := F.freed
    refine ⟨l, hl, (perm_ext_iff_of_nodup (F.once l hl) ?_).2 fun g => ?_⟩
    · refine nodup_append.2 ⟨tree_of_forest h.trees.nodup hr, hown.1, ?_⟩
      rintro g hg f hf rfl
      exact h.apart g (hpages g hf) hg
    · rw [hmem, mem_append]
      exact or_congr_right ⟨fun hg => hg.1, fun hg => ⟨hg, hlone g hg⟩⟩

/-- along a construction the account is kept -/
theorem Builds.ledger (h : Ledger p r k []) (hb : Builds PageFlags k k' pool) : Ledger p r k' pool := by
  induction hb with
  | start => exact h
  | alloc _ hrun h0 ih => exact ih.alloc hrun h0
  | map _ ht hf hrun ih =>
    have hmap := ih.map ht hf.2 hrun
    rwa [if_pos hf.1] at hmap

end Ledger

/-- **The teardown is the inverse of the construction.** A space is made and pages are taken and mapped in it, until all
of them are mapped; no page of it is shared and the array of counts exists. Then the teardown gives back each table and
each page of the space once, and the free pages are those from before. -/
theorem teardown_inverts {k k₁ k₂ : Kern} {cr3 : PAddr} (hk : k.pmm.Ok) (hphys : k.pmm.bitmapLen ≤ 2 ^ 40)
    (harray : k.pmm.refcounts ≠ none) (hcreate : k.vmmCreateSpace = .ok (cr3, k₁))
    (hbuild : Builds PageFlags (k₁.vmmSwitch cr3) k₂ [])
    (hcounts : ∀ f ∈ frames k₂.mem (pageIdx cr3), k₂.pmm.counts f = 0) :
    ∃ k₃, teardown cr3 k₂ = .ok k₃ ∧ k₃.pmm.freeSet = k.pmm.freeSet ∧ ∃ l, k₃.pmm.freed = l ++ k₂.pmm.freed ∧
      l.Perm (paging.tables k₂.mem 3 (pageIdx cr3) lowerHalf ++ frames k₂.mem (pageIdx cr3)) := by
  obtain ⟨d, hd, C⟩ := (vmmCreateSpace_spec hk).of_eq hcreate
  simp only at hd C
  have hd52 : d < 2 ^ 52 := lt_of_lt_of_le (Pmm.mem_freeSet.1 C.fresh).1 hk.small
  rw [hd] at hbuild
  have L := hbuild.ledger (C.ledger hphys)
  rw [← Pmm.pageIdx_pageAddr hd52, ← hd] at L
  obtain ⟨k₃, hrun, hfree, hfreed⟩ := L.teardown hk harray hcounts
  refine ⟨k₃, hrun, Finset.ext fun g => ?_, hfreed⟩
  rw [hfree, and_iff_left List.not_mem_nil]

/-! ## One page, mapped with and without `VMM_PRESENT` -/

/-- an empty PML4 in page 1, pages 2 .. 63 free, all counts 0 -/
def blankCounted : Kern := ⟨fun _ _ => 0, Pmm.fresh 64 2 (some fun _ => 0), 1, pageAddr 1, pageAddr 1⟩

theorem blankCounted_free : blankCounted.pmm.freeSet = Finset.Ico 2 64 := Pmm.freeSet_fresh _ _ (by decide)

theorem blankCounted_ok : blankCounted.pmm.Ok := Pmm.fresh_ok _ (by decide) (by decide) (by decide) (by decide)

/-- the address of the page -/
def pageVa : UserAddr := ⟨0x400000#64, by decide⟩

/-- a space with one page, which can be built with any flags -/
theorem blankCounted_builds (flags : U64) : ∃ cr3 k₁ k₂ k₃ pa, blankCounted.vmmCreateSpace = .ok (cr3, k₁) ∧
    Ledger blankCounted.pmm (pageIdx cr3) (k₁.vmmSwitch cr3) [] ∧ (k₁.vmmSwitch cr3).pmmAlloc = .ok (pa, k₂) ∧ pa ≠ 0 ∧
    k₂.vmmMap pageVa.1 (pageAddr (pageIdx pa)) flags = .ok k₃ := by
  obtain ⟨⟨cr3, k₁⟩, hcreate, d, rfl, C⟩ := (vmmCreateSpace_spec blankCounted_ok).exists_ok fun st hst => by
    rw [blankCounted_free] at hst
    exact absurd hst.2 (by decide)
  have hd52 := Pmm.lt_of_free C.fresh blankCounted_ok.small
  have L := C.ledger (by decide)
  have hcard : 61 ≤ k₁.pmm.freeSet.card := by
    rw [C.takes.free, Finset.card_sdiff_of_subset (Finset.singleton_subset_iff.2 C.fresh), blankCounted_free,
      Finset.card_singleton]
    decide
  obtain ⟨pa, q, hq, hcase⟩ := Pmm.pmmAlloc_spec L.trees.pmm
  rcases hcase with ⟨-, -, hempty⟩ | ⟨t, ht, rfl, hT⟩
  · rw [show (k₁.vmmSwitch (pageAddr d)).pmm = k₁.pmm from rfl] at hempty
    rw [hempty] at hcard
    exact absurd hcard (by decide)
  · have h0 : pageAddr t ≠ 0 := (Pmm.pageIdx_of_free L.trees.pmm ht).1
    have halloc : (k₁.vmmSwitch (pageAddr d)).pmmAlloc = .ok (pageAddr t, (k₁.vmmSwitch (pageAddr d)).setPmm q) := by
      rw [Kern.pmmAlloc, hq]
      rfl
    have L' := L.alloc halloc h0
    have hnone : paging.walk k₁.mem 3 d (idx pageVa.1) = none :=
      walk_absent (by rw [C.lower _ pageVa.lower, paging_present, zero_has])
    have hroot := L'.active
    have hr : ((k₁.vmmSwitch (pageAddr d)).setPmm q).pml4 ∈ [d] := by rw [hroot]; exact mem_singleton_self d
    obtain ⟨k₃, hmap, -⟩ := (vmmMap_spec (pageAddr (pageIdx (pageAddr t))) flags L'.trees lowerHalf_nodup hr
      pageVa.lower).exists_ok fun st hst => by
        rcases hst with ⟨-, hst⟩ | ⟨-, hst⟩
        · rw [setPmm_pmm, hT.free, Finset.card_sdiff_of_subset (Finset.singleton_subset_iff.2 ht),
            Finset.card_singleton] at hst
          change k₁.pmm.freeSet.card - 1 < 3 at hst
          omega
        · rw [hroot] at hst
          exact hst hnone
    refine ⟨_, k₁, _, k₃, _, hcreate, ?_, halloc, h0, hmap⟩
    rw [Pmm.pageIdx_pageAddr hd52]
    exact L

/-- **A page mapped without `VMM_PRESENT` is never given back.** -/
theorem teardown_leaks : ∃ cr3 k₁ k₂ k₃, blankCounted.vmmCreateSpace = .ok (cr3, k₁) ∧
    Builds (fun _ => True) (k₁.vmmSwitch cr3) k₂ [] ∧ (∀ f, k₂.pmm.counts f = 0) ∧
    teardown cr3 k₂ = .ok k₃ ∧ k₃.pmm.freeSet ≠ blankCounted.pmm.freeSet := by
  obtain ⟨cr3, k₁, k₂, k₃, pa, hcreate, L, halloc, h0, hmap⟩ := blankCounted_builds 0#64
  have L₂ := L.alloc halloc h0
  have L₃ := L₂.map List.mem_cons_self (by decide) hmap
  rw [if_neg (by decide)] at L₃
  have hcounts : ∀ f, k₃.pmm.counts f = 0 := fun f => by rw [Pmm.counts, L₃.refs]; rfl
  obtain ⟨k₄, hrun, hfree, -⟩ := L₃.teardown blankCounted_ok (by decide) fun f _ => hcounts f
  have hb := (Builds.start.alloc halloc h0).map (P := fun _ => True) List.mem_cons_self
    trivial hmap
  rw [List.erase_cons_head] at hb
  refine ⟨cr3, k₁, k₃, k₄, hcreate, hb, hcounts, hrun, fun heq => ?_⟩
  have hwas : pageIdx pa ∈ blankCounted.pmm.freeSet :=
    (L₃.taken _).2 (.inr (.inr (List.mem_append_right _ List.mem_cons_self)))
  rw [← heq, hfree] at hwas
  exact hwas.2 List.mem_cons_self

/-- a page mapped for ring 3 -/
theorem teardown_inverts_page : ∃ cr3 k₁ k₂ k₃, blankCounted.vmmCreateSpace = .ok (cr3, k₁) ∧
    Builds PageFlags (k₁.vmmSwitch cr3) k₂ [] ∧ teardown cr3 k₂ = .ok k₃ ∧
    k₃.pmm.freeSet = blankCounted.pmm.freeSet := by
  obtain ⟨cr3, k₁, k₂, k₃, pa, hcreate, L, halloc, h0, hmap⟩ := blankCounted_builds 7#64
  have hb := (Builds.start.alloc halloc h0).map (P := PageFlags) List.mem_cons_self
    (by decide) hmap
  rw [List.erase_cons_head] at hb
  have hrefs := (hb.ledger L).refs
  obtain ⟨k₄, hrun, hfree, -⟩ := teardown_inverts blankCounted_ok (by decide) (by decide) hcreate hb fun f _ => by
    rw [Pmm.counts, hrefs]
    rfl
  exact ⟨cr3, k₁, k₃, k₄, hcreate, hb, hrun, hfree⟩

end Uix.Kern
