/-
What `pt_for` and the functions over it do, in terms of page walks. `paging` is how the kernel reads entries; a list of
roots is in good order (`Trees`) when no table page is reached twice from them and all table pages are marked used.

- `vmmTranslate_eq`: `vmm_translate` reads the end of the walk.
- `Dug.table`, `ptFor_demand`: building tables changes no walk (`Grown`), and takes a page for each table that is
  missing.
- `vmmMap_spec`, `vmmUnmap_spec`: one walk gets its leaf, or loses it.
-/
import Uix.Memory.Pte

namespace Uix

open Machine Radix Radix.Format List
open Pmm (pageIdx pageAddr Takes)

/-- how `vmm.c` reads page-table entries: 1 GiB and 2 MiB leaves at levels 2 and 1 -/
def paging : Format U64 where
  present e := has e vmmPresent
  large l e := (l == 1 || l == 2) && has e pdePs
  next := frame

@[simp] theorem paging_present (e : U64) : paging.present e = has e vmmPresent := rfl

@[simp] theorem paging_next (e : U64) : paging.next e = frame e := rfl

theorem paging_link {l : ℕ} {e : U64} (hp : has e vmmPresent = true) (hs : has e pdePs = false) :
    paging.link l e = true := by
  simp [Format.link, paging, hp, hs]

theorem not_paging_link {l : ℕ} {e : U64} (hl : l < 2) (hs : has e pdePs = true) : paging.link l e = false := by
  interval_cases l <;> simp [Format.link, paging, hs]

/-- a PML4 entry has no leaf -/
theorem paging_link_top {e : U64} : paging.link 2 e = has e vmmPresent := by
  simp [Format.link, paging]

namespace Kern

/-- the registers of the address space are the same -/
def SameRegs (k k' : Kern) : Prop := k'.pml4 = k.pml4 ∧ k'.cr3 = k.cr3 ∧ k'.kernelCr3 = k.kernelCr3

theorem SameRegs.trans {k k' k'' : Kern} (h : SameRegs k k') (h' : SameRegs k' k'') : SameRegs k k'' :=
  ⟨h'.1.trans h.1, h'.2.1.trans h.2.1, h'.2.2.trans h.2.2⟩

/-! ## Memory after a store -/

theorem set_mem (k : Kern) (f : ℕ) (i : Fin 512) (e : U64) (h : ℕ) (j : Fin 512) :
    (k.set f i e).mem h j = if h = f ∧ j = i then e else k.mem h j := by
  by_cases hf : h = f
  · subst hf
    by_cases hj : j = i
    · subst hj; simp [set]
    · simp [set, hj]
  · simp [set, hf]

theorem set_mem_of_ne (k : Kern) {f h : ℕ} (i : Fin 512) (e : U64) (hne : h ≠ f) : (k.set f i e).mem h = k.mem h := by
  funext j
  rw [set_mem, if_neg fun hc => hne hc.1]

theorem set_mem_self (k : Kern) (f : ℕ) (i : Fin 512) (e : U64) : (k.set f i e).mem f i = e := by
  rw [set_mem, if_pos ⟨rfl, rfl⟩]

theorem zero_mem_of_ne (k : Kern) {f h : ℕ} (hne : h ≠ f) : (k.zero f).mem h = k.mem h := Function.update_of_ne hne _ _

theorem zero_mem_self (k : Kern) (f : ℕ) (j : Fin 512) : (k.zero f).mem f j = 0 := by
  simp [zero]

/-- the loop that copies the upper half of the active PML4 -/
theorem copyEntries_eq (L : List (Fin 512)) (k : Kern) (dst : ℕ) :
    L.foldl (fun k i => k.set dst i (k.mem k.pml4 i)) k =
      { k with mem := fun f j => if f = dst ∧ j ∈ L then k.mem k.pml4 j else k.mem f j } := by
  induction L generalizing k with
  | nil => simp
  | cons i L ih =>
    rw [foldl_cons, ih]
    have hmem : (fun f j => if f = dst ∧ j ∈ L then (k.set dst i (k.mem k.pml4 i)).mem k.pml4 j
        else (k.set dst i (k.mem k.pml4 i)).mem f j) =
        fun f j => if f = dst ∧ j ∈ i :: L then k.mem k.pml4 j else k.mem f j := by
      funext f j
      simp only [set_mem, mem_cons]
      by_cases hj : j = i
      · subst hj
        by_cases hf : f = dst
        · simp [hf]
        · simp [hf]
      · simp [hj]
    exact congrArg (fun m => ({ k with mem := m } : Kern)) hmem

theorem copyUpper_mem (k : Kern) (dst f : ℕ) (j : Fin 512) :
    (k.copyUpper dst).mem f j = if f = dst ∧ j ∈ upperHalf then k.mem k.pml4 j else k.mem f j := by
  rw [copyUpper, copyEntries_eq]

theorem copyUpper_rest (k : Kern) (dst : ℕ) : (k.copyUpper dst).pmm = k.pmm ∧ (k.copyUpper dst).pml4 = k.pml4 ∧
    (k.copyUpper dst).cr3 = k.cr3 ∧ (k.copyUpper dst).kernelCr3 = k.kernelCr3 := by
  rw [copyUpper, copyEntries_eq]
  exact ⟨rfl, rfl, rfl, rfl⟩

theorem mem_lowerHalf {i : Fin 512} : i ∈ lowerHalf ↔ i.val < 256 := by simp [lowerHalf]

theorem mem_upperHalf {i : Fin 512} : i ∈ upperHalf ↔ 256 ≤ i.val := by simp [upperHalf]

theorem mem_upperHalf_iff {i : Fin 512} : i ∈ upperHalf ↔ i ∉ lowerHalf := by
  rw [mem_upperHalf, mem_lowerHalf, not_lt]

theorem lowerHalf_nodup : lowerHalf.Nodup := (nodup_finRange 512).filter _

/-! ## `vmm_translate` -/

/-- the address at the end of a walk -/
def target (va : U64) : ℕ × U64 → PAddr
  | (0, e) => e &&& pteMask
  | (1, e) => (e &&& pde2mMask) + (va &&& 0x1FFFFF#64)
  | (_, e) => (e &&& pdpte1gMask) + (va &&& 0x3FFFFFFF#64)

/-- **`vmm_translate` reads the end of the walk.** -/
theorem vmmTranslate_eq (k : Kern) (va : U64) :
    k.vmmTranslate va = (paging.walk k.mem 3 k.pml4 (idx va)).map (target va) := by
  simp only [vmmTranslate, show pml4Idx va = idx va 3 from rfl, show pdptIdx va = idx va 2 from rfl,
    show pdIdx va = idx va 1 from rfl, show ptIdx va = idx va 0 from rfl]
  cases h3 : has (k.mem k.pml4 (idx va 3)) vmmPresent with
  | false => rw [walk_absent h3]; rfl
  | true =>
    rw [walk_link (paging_link_top.trans h3), paging_next]
    generalize frame (k.mem k.pml4 (idx va 3)) = p2
    cases h2 : has (k.mem p2 (idx va 2)) vmmPresent with
    | false => rw [walk_absent h2]; rfl
    | true =>
      cases s2 : has (k.mem p2 (idx va 2)) pdePs with
      | true => rw [walk_large (not_paging_link (by decide) s2) h2]; rfl
      | false =>
        rw [walk_link (paging_link h2 s2), paging_next]
        generalize frame (k.mem p2 (idx va 2)) = p1
        cases h1 : has (k.mem p1 (idx va 1)) vmmPresent with
        | false => rw [walk_absent h1]; rfl
        | true =>
          cases s1 : has (k.mem p1 (idx va 1)) pdePs with
          | true => rw [walk_large (not_paging_link (by decide) s1) h1]; rfl
          | false =>
            rw [walk_link (paging_link h1 s1), paging_next]
            generalize frame (k.mem p1 (idx va 1)) = p0
            cases h0 : has (k.mem p0 (idx va 0)) vmmPresent with
            | false => rw [walk_absent h0]; rfl
            | true => simp [Format.walk, h0, target]

variable {k k' k'' : Kern} {roots : List ℕ} {is : List (Fin 512)} {x : ℕ → Fin 512} {r j g t : ℕ} {va e : U64}
  {S S' : Finset ℕ}

/-! ## Trees of used pages -/

/-- the page tables below `roots` are trees of pages that are marked used, in the memory of `k`; physical addresses have
at most 52 bits -/
structure Trees (k : Kern) (roots : List ℕ) (is : List (Fin 512)) : Prop where
  pmm : k.pmm.Ok
  phys : k.pmm.bitmapLen ≤ 2 ^ 40
  nodup : (paging.forest k.mem 3 roots is).Nodup
  inside : ∀ g ∈ paging.forest k.mem 3 roots is, g < k.pmm.bitmapLen
  used : ∀ g ∈ paging.forest k.mem 3 roots is, g ∉ k.pmm.freeSet

/-- the flags of a pointer to a table that the kernel builds -/
def TableLink (e : U64) : Prop :=
  has e (vmmWrite.setWidth 64) = true ∧ has e vmmUser = true ∧ has e pdePs = false

/-- `k'` is `k` with tables added in the pages `S`, and nothing else changed -/
structure Grown (roots : List ℕ) (is : List (Fin 512)) (k k' : Kern) (S : Finset ℕ) : Prop where
  takes : Takes k.pmm S k'.pmm
  regs : SameRegs k k'
  trees : Trees k' roots is
  sub : ∀ g ∈ paging.forest k'.mem 3 roots is, g ∈ paging.forest k.mem 3 roots is ∨ g ∈ S
  sup : ∀ g, g ∈ paging.forest k.mem 3 roots is ∨ g ∈ S → g ∈ paging.forest k'.mem 3 roots is
  walk : ∀ r ∈ roots, ∀ y : ℕ → Fin 512, y 3 ∈ is → paging.walk k'.mem 3 r y = paging.walk k.mem 3 r y
  leaves : ∀ r ∈ roots, paging.leaves k'.mem 3 r is = paging.leaves k.mem 3 r is
  links : ∀ r ∈ roots, ∀ e ∈ paging.links k'.mem 3 r is, e ∈ paging.links k.mem 3 r is ∨ TableLink e
  outside : ∀ f, f ∉ S → f ∉ paging.forest k.mem 3 roots is → k'.mem f = k.mem f
  rest : ∀ r ∈ roots, ∀ i, i ∉ is → k'.mem r i = k.mem r i
  top : ∀ r ∈ roots, ∀ i, has (k.mem r i) vmmPresent = true → k'.mem r i = k.mem r i

theorem Grown.refl (T : Trees k roots is) : Grown roots is k k ∅ where
  takes := .refl T.pmm
  regs := ⟨rfl, rfl, rfl⟩
  trees := T
  sub _ h := .inl h
  sup _ h := h.elim id fun h => absurd h (Finset.notMem_empty _)
  walk _ _ _ _ := rfl
  leaves _ _ := rfl
  links _ _ _ h := .inl h
  outside _ _ _ := rfl
  rest _ _ _ _ := rfl
  top _ _ _ _ := rfl

theorem Grown.trans (h1 : Grown roots is k k' S) (h2 : Grown roots is k' k'' S') : Grown roots is k k'' (S ∪ S') where
  takes := h1.takes.trans h2.takes
  regs := h1.regs.trans h2.regs
  trees := h2.trees
  sub g hg := by
    rw [Finset.mem_union]
    rcases h2.sub g hg with hg | hg
    · exact (h1.sub g hg).imp_right .inl
    · exact .inr (.inr hg)
  sup g hg := by
    rw [Finset.mem_union, ← or_assoc] at hg
    exact h2.sup g (hg.imp_left (h1.sup g))
  walk r hr y hy := (h2.walk r hr y hy).trans (h1.walk r hr y hy)
  leaves r hr := (h2.leaves r hr).trans (h1.leaves r hr)
  links r hr e he := by
    rcases h2.links r hr e he with he | he
    · exact h1.links r hr e he
    · exact .inr he
  outside f hS hf := by
    rw [Finset.mem_union, not_or] at hS
    rw [h2.outside f hS.2 fun h => ?_, h1.outside f hS.1 hf]
    rcases h1.sub f h with h | h
    · exact hf h
    · exact hS.1 h
  rest r hr i hi := (h2.rest r hr i hi).trans (h1.rest r hr i hi)
  top r hr i hp := by
    have h := h1.top r hr i hp
    exact (h2.top r hr i (by rw [h, hp])).trans h

/-- taking a page: the rest runs with 0 when no page is free, and with a page that was free otherwise -/
theorem meets_alloc_eq {α : Type} {f : PAddr × Kern → Except Stop α} {S : Stop → Prop} {Q : α → Prop}
    (h : k.pmm.Ok) (h0 : k.pmm.freeSet = ∅ → Meets (f (0, k)) S Q)
    (h1 : ∀ t p, t ∈ k.pmm.freeSet → pageAddr t ≠ 0 → Takes k.pmm {t} p → k.pmm.pmmAlloc = .ok (pageAddr t, p) →
      Meets (f (pageAddr t, k.setPmm p)) S Q) : Meets (k.pmmAlloc >>= f) S Q := by
  obtain ⟨pa, p, hrun, hcase⟩ := Pmm.pmmAlloc_spec h
  have hk : k.pmmAlloc = .ok (pa, k.setPmm p) := by rw [pmmAlloc, hrun]; rfl
  rw [hk, ok_bind]
  rcases hcase with ⟨rfl, rfl, hf⟩ | ⟨t, ht, rfl, hT⟩
  · exact h0 hf
  · exact h1 t p ht (Pmm.pageIdx_of_free h ht).1 hT hrun

theorem meets_alloc {α : Type} {f : PAddr × Kern → Except Stop α} {S : Stop → Prop} {Q : α → Prop}
    (h : k.pmm.Ok) (h0 : k.pmm.freeSet = ∅ → Meets (f (0, k)) S Q)
    (h1 : ∀ t p, t ∈ k.pmm.freeSet → pageAddr t ≠ 0 → Takes k.pmm {t} p → Meets (f (pageAddr t, k.setPmm p)) S Q) :
    Meets (k.pmmAlloc >>= f) S Q :=
  meets_alloc_eq h h0 fun t p ht hne hT _ => h1 t p ht hne hT

@[simp] theorem setPmm_mem (k : Kern) (p : Pmm) : (k.setPmm p).mem = k.mem := rfl

@[simp] theorem setPmm_pmm (k : Kern) (p : Pmm) : (k.setPmm p).pmm = p := rfl

/-! ## Building tables -/

/-- `k'` is `k` with the new table `t` at the entry of `g` that walk `x` takes -/
structure TableAdded (k k' : Kern) (x : ℕ → Fin 512) (j g t : ℕ) : Prop where
  free : t ∈ k.pmm.freeSet
  takes : Takes k.pmm {t} k'.pmm
  regs : SameRegs k k'
  same : ∀ f i, f ≠ t → ¬ (f = g ∧ i = x (j + 1)) → k'.mem f i = k.mem f i
  table : Fresh paging k.mem k'.mem x j g t
  link : TableLink (k'.mem g (x (j + 1)))
  alloc : k.pmm.pmmAlloc = .ok (pageAddr t, k'.pmm)

/-- a table is added if and only if the entry is absent -/
theorem ensureTable_added
    (T : Trees k roots is) (hr : r ∈ roots) (hx : x 3 ∈ is) (hp : At paging k.mem x 3 r (j + 1) g) :
    Meets (k.ensureTable g (x (j + 1)))
      (fun e => e = .panic .vmmOomTables ∧ k.pmm.freeSet = ∅ ∧ has (k.mem g (x (j + 1))) vmmPresent = false) fun k' =>
      (has (k.mem g (x (j + 1))) vmmPresent = true ∧ k' = k) ∨
        has (k.mem g (x (j + 1))) vmmPresent = false ∧ ∃ t, TableAdded k k' x j g t := by
  unfold ensureTable
  cases hpres : has (k.mem g (x (j + 1))) vmmPresent with
  | true =>
    rw [if_pos rfl]
    exact meets_ok (.inl ⟨rfl, rfl⟩)
  | false =>
    rw [if_neg (by simp)]
    refine meets_alloc_eq T.pmm (fun h => meets_error ⟨rfl, h, rfl⟩) fun t p ht h0 hT halloc => ?_
    simp only [if_neg h0, pure_eq_ok]
    refine meets_ok (.inr ⟨trivial, t, ?_⟩)
    have ht40 := Pmm.lt_of_free ht T.phys
    have hgt : g ≠ t := by
      rintro rfl
      exact T.used g (mem_forest.2 ⟨r, hr, hp.mem_tables hx⟩) ht
    rw [Pmm.pageIdx_pageAddr (by omega)]
    set k' := ((k.setPmm p).zero t).set g (x (j + 1)) (pageAddr t ||| tableFlags) with hk'
    have hentry : k'.mem g (x (j + 1)) = pageAddr t ||| tableFlags := set_mem_self ..
    have hblank : ∀ i, k'.mem t i = 0 := fun i => by
      rw [hk', set_mem_of_ne _ _ _ hgt.symm, zero_mem_self]
    refine ⟨ht, hT, ⟨rfl, rfl, rfl⟩, ?_, ⟨hpres, ?_, ?_, ?_⟩, ?_, halloc⟩
    · intro f i hft hfi
      rw [hk', set_mem, if_neg hfi, zero_mem_of_ne _ hft, setPmm_mem]
    · rw [hentry]
      exact paging_link (present_table _) (ps_table ht40)
    · rw [hentry]
      exact frame_table ht40
    · intro i
      rw [hblank, paging_present, zero_has]
    · rw [hentry]
      refine ⟨?_, ?_, ps_table ht40⟩
      · rw [has_or, show has tableFlags (vmmWrite.setWidth 64) = true by decide, Bool.or_true]
      · rw [has_or, show has tableFlags vmmUser = true by decide, Bool.or_true]

/-- a table added below an absent entry, seen from all roots -/
theorem TableAdded.grown
    (A : TableAdded k k' x j g t) (T : Trees k roots is) (his : is.Nodup) (hr : r ∈ roots) (hx : x 3 ∈ is)
    (hp : At paging k.mem x 3 r (j + 1) g) : Grown roots is k k' {t} ∧ At paging k'.mem x 3 r (j + 1) g := by
  obtain ⟨ht, hT, hregs, hsame, hF, hlink, -⟩ := A
  have hne : ∀ f ∈ paging.forest k.mem 3 roots is, f ≠ t := by
    rintro f hf rfl
    exact T.used f hf ht
  have hgr : g ∈ paging.tables k.mem 3 r is := hp.mem_tables hx
  have H : Hole paging k.mem k'.mem x is 3 r (j + 1) g := by
    refine ⟨hp, hx, his, tree_of_forest T.nodup hr, ?_⟩
    intro h hh i hi
    exact hsame h i (hne h (mem_forest.2 ⟨r, hr, hh⟩)) hi
  have hother : ∀ r' ∈ roots, r' ≠ r → Agree paging k.mem k'.mem 3 r' is := by
    intro r' hr' hrr
    refine Agree.of_tables fun h hh => funext fun i => ?_
    apply hsame h i (hne h (mem_forest.2 ⟨r', hr', hh⟩))
    rintro ⟨rfl, -⟩
    exact ne_of_forest T.nodup hr' hr hrr hh hgr rfl
  have hperm : (paging.forest k'.mem 3 roots is).Perm (paging.forest k.mem 3 roots is ++ [t]) := by
    have hone : (paging.tables k'.mem 3 r is ++ []).Perm (paging.tables k.mem 3 r is ++ [t]) := by
      rw [append_nil]
      exact H.tables_fresh hF
    have := flatMap_perm (roots_nodup T.nodup) hr hone fun r' hr' hrr => (hother r' hr' hrr).tables
    rwa [append_nil] at this
  have hmem : ∀ f ∈ paging.forest k'.mem 3 roots is, f ∈ paging.forest k.mem 3 roots is ∨ f = t := by
    intro f hf
    have := hperm.mem_iff.1 hf
    rwa [mem_append, mem_singleton] at this
  refine ⟨⟨hT, hregs, ⟨hT.ok, hT.len ▸ T.phys, ?_, ?_, ?_⟩, ?_, ?_, ?_, ?_, ?_, ?_, ?_, ?_⟩, H.path_after⟩
  · -- the new page was free, the tables were used
    refine hperm.nodup_iff.2 (nodup_append.2 ⟨T.nodup, nodup_singleton t, ?_⟩)
    intro f hf f' hf'
    rw [mem_singleton.1 hf']
    exact hne f hf
  · intro f hf
    rw [hT.len]
    rcases hmem f hf with hf | rfl
    · exact T.inside f hf
    · exact (Pmm.mem_freeSet.1 ht).1
  · intro f hf
    rw [hT.free, Finset.mem_sdiff, Finset.mem_singleton]
    rcases hmem f hf with hf | rfl
    · exact fun hc => T.used f hf hc.1
    · exact fun hc => hc.2 rfl
  · intro f hf
    exact (hmem f hf).imp_right Finset.mem_singleton.2
  · intro f hf
    rw [Finset.mem_singleton, ← mem_singleton] at hf
    exact hperm.mem_iff.2 (mem_append.2 hf)
  · intro r' hr' y hy
    by_cases hrr : r' = r
    · subst hrr
      exact H.walk_fresh hF hy
    · exact (hother r' hr' hrr).walk hy
  · intro r' hr'
    by_cases hrr : r' = r
    · subst hrr
      obtain ⟨pre, post, h1, h2⟩ := H.gather_fresh (fun l e => [(l, e)]) (fun _ => []) hF
      rw [append_nil, ← h1] at h2
      exact h2
    · exact (hother r' hr' hrr).leaves
  · intro r' hr' e he
    by_cases hrr : r' = r
    · subst hrr
      obtain ⟨pre, post, h1, h2⟩ := H.gather_fresh (fun _ _ => []) (fun e => [e]) hF
      simp only [Format.links, Format.linksAt, h1, h2, mem_append, mem_singleton] at he ⊢
      rcases he with (he | rfl) | he
      · exact .inl (.inl he)
      · exact .inr hlink
      · exact .inl (.inr he)
    · rw [(hother r' hr' hrr).links] at he
      exact .inl he
  · intro f hS hf
    rw [Finset.mem_singleton] at hS
    funext i
    apply hsame f i hS
    rintro ⟨rfl, -⟩
    exact hf (mem_forest.2 ⟨r, hr, hgr⟩)
  · intro r' hr' i hi
    apply hsame r' i (hne r' (root_mem_forest hr'))
    rintro ⟨rfl, rfl⟩
    -- a root is in its own tree only, and there only as the top of the walk
    by_cases hrr : r' = r
    · subst hrr
      rcases H.place with ⟨h3, -⟩ | hg
      · exact hi (h3 ▸ hx)
      · exact root_ne_of_tables H.tree hx hg rfl
    · exact ne_of_forest T.nodup hr' hr hrr mem_cons_self hgr rfl
  · intro r' hr' i hpres
    apply hsame r' i (hne r' (root_mem_forest hr'))
    rintro ⟨rfl, rfl⟩
    have habs : has (k.mem r' (x (j + 1))) vmmPresent = false := hF.absent
    rw [habs] at hpres
    exact absurd hpres (by decide)

/-- `k'` is `k` with the tables on the way of `x` from `r` down to table `g` of level `j` -/
structure Dug (roots : List ℕ) (is : List (Fin 512)) (r : ℕ) (x : ℕ → Fin 512) (k k' : Kern) (S : Finset ℕ) (j g : ℕ) :
    Prop where
  grown : Grown roots is k k' S
  way : At paging k'.mem x 3 r j g
  card : S.card + paging.gap k'.mem 3 r x = paging.gap k.mem 3 r x
  pmm : k'.pmm = k.pmm.skip S.card
  gaps : ∀ y : ℕ → Fin 512, y 3 ∈ is → paging.gap k'.mem 3 r y = min (paging.gap k.mem 3 r y) (max (split x y 3) j)

/-- a present entry on the way of a walk that finds nothing points to a table -/
theorem link_of_none (hp : At paging k.mem x 3 r (j + 1) g) (hnone : paging.walk k.mem 3 r x = none)
    (hpres : has (k.mem g (x (j + 1))) vmmPresent = true) : paging.link j (k.mem g (x (j + 1))) = true := by
  by_contra hl
  rw [hp.walk, walk_large (Bool.not_eq_true _ ▸ hl) hpres] at hnone
  exact absurd hnone (by simp)

/-- the pages left after taking some -/
theorem card_of_taken {k' : Kern} {S : Finset ℕ} (h : Takes k.pmm S k'.pmm) :
    k'.pmm.freeSet.card + S.card = k.pmm.freeSet.card := by
  rw [h.free, Finset.card_sdiff_of_subset h.sub, Nat.sub_add_cancel (Finset.card_le_card h.sub)]

/-- **One table on the way.** -/
theorem Dug.table {k' : Kern} {S : Finset ℕ} (D : Dug roots is r x k k' S (j + 1) g) (his : is.Nodup) (hr : r ∈ roots)
    (hx : x 3 ∈ is) (hnone : paging.walk k.mem 3 r x = none) :
    Meets (k'.ensureTable g (x (j + 1)))
      (fun e => e = .panic .vmmOomTables ∧ k.pmm.freeSet.card < paging.gap k.mem 3 r x) fun k'' =>
      paging.link j (k''.mem g (x (j + 1))) = true ∧
        ∃ S', Dug roots is r x k k'' S' j (frame (k''.mem g (x (j + 1)))) := by
  have hp := D.way
  have hcard := D.card
  have hT := card_of_taken D.grown.takes
  have hstop : has (k'.mem g (x (j + 1))) vmmPresent = false → paging.gap k'.mem 3 r x = j + 1 := by
    intro habs
    rw [hp.gap]
    exact gap_stop (by rw [Format.link, paging_present, habs, Bool.false_and])
  refine (ensureTable_added D.grown.trees hr hx hp).mono ?_ ?_
  · rintro e ⟨he, h0, habs⟩
    have hgap := hstop habs
    rw [h0, Finset.card_empty] at hT
    exact ⟨he, by omega⟩
  rintro k'' (⟨hpres, rfl⟩ | ⟨habs, t, A⟩)
  · have hl := link_of_none hp ((D.grown.walk _ hr _ hx).trans hnone) hpres
    have hat := hp.snoc hl
    refine ⟨hl, S, D.grown, hat, hcard, D.pmm, fun y hy => ?_⟩
    have hgap := D.gaps y hy
    by_cases hs : split x y 3 ≤ j
    · have hle := (hat.congr (split_le_iff.1 hs)).gap_le
      omega
    · omega
  · obtain ⟨G, hat⟩ := A.grown D.grown.trees his hr hx hp
    have hne : ∀ h ∈ paging.tables k'.mem 3 r is, h ≠ t := by
      rintro h hh rfl
      exact D.grown.trees.used h (mem_forest.2 ⟨r, hr, hh⟩) A.free
    have H : Hole paging k'.mem k''.mem x is 3 r (j + 1) g :=
      ⟨hp, hx, his, tree_of_forest D.grown.trees.nodup hr, fun h hh i hi => A.same h i (hne h hh) hi⟩
    have hone : (S ∪ {t}).card = S.card + 1 := by
      have h1 := card_of_taken G.takes
      have h2 := card_of_taken (D.grown.trans G).takes
      rw [Finset.card_singleton] at h1
      omega
    refine ⟨A.table.link, S ∪ {t}, D.grown.trans G, hat.snoc A.table.link, ?_, ?_, fun y hy => ?_⟩
    · rw [hone, H.gap_fresh A.table hx, if_pos (split_le_iff.2 fun _ _ _ => rfl)]
      have hgap := hstop habs
      omega
    · rw [hone]
      have halloc := A.alloc
      rw [D.pmm] at halloc
      exact (Pmm.skip_succ halloc ((Pmm.lt_of_free A.free D.grown.trees.phys).trans (by decide))).symm
    · have hgap := D.gaps y hy
      rw [H.gap_fresh A.table hy]
      split_ifs with hs
      · -- the walks through the new table had the gap of `x`
        have hy' : paging.gap k'.mem 3 r y = j + 1 := by
          have heq := split_le_iff.1 hs
          rw [(hp.congr fun i h1 h2 => heq i (Nat.lt_of_succ_lt h1) h2).gap]
          refine gap_stop ?_
          rw [heq (j + 1) (Nat.lt_succ_self j) hp.le, Format.link, paging_present, habs, Bool.false_and]
        omega
      · omega

theorem ps_of_link {l : ℕ} {e : U64} (hl : l < 2) (h : paging.link l e = true) : has e pdePs = false := by
  cases hs : has e pdePs with
  | false => rfl
  | true => rw [not_paging_link hl hs] at h; exact absurd h (by decide)

theorem Dug.card_eq {k' : Kern} {S : Finset ℕ} (D : Dug roots is r x k k' S 0 g) : S.card = paging.gap k.mem 3 r x := by
  rw [← D.card, Nat.le_zero.1 D.way.gap_le, Nat.add_zero]

theorem ensureTable_present {f : ℕ} {i : Fin 512} (h : has (k.mem f i) vmmPresent = true) :
    k.ensureTable f i = .ok k := if_pos h

/-- **`pt_for`** comes to the page table of the address, or to a large leaf; otherwise nothing is mapped. -/
theorem ptFor_cases (k : Kern) (va : U64) (create : Bool) :
    (∃ g, At paging k.mem (idx va) 3 k.pml4 0 g ∧ k.ptFor va create = .ok (some g, k)) ∨
    (∃ l e, paging.walk k.mem 3 k.pml4 (idx va) = some (l + 1, e) ∧ k.ptFor va create = .ok (none, k)) ∨
    paging.walk k.mem 3 k.pml4 (idx va) = none ∧ (create = false → k.ptFor va create = .ok (none, k)) := by
  simp only [ptFor]
  cases h3 : has (k.mem k.pml4 (pml4Idx va)) vmmPresent with
  | false =>
    refine .inr (.inr ⟨walk_absent (x := idx va) (l := 3) h3, ?_⟩)
    rintro rfl
    rfl
  | true =>
    simp only [ensureTable_present h3, ok_bind, Bool.not_true, Bool.false_and, Bool.false_eq_true, if_false]
    have A3 : At paging k.mem (idx va) 3 k.pml4 2 (frame (k.mem k.pml4 (pml4Idx va))) :=
      (At.here 3 k.pml4).snoc (paging_link_top.trans h3)
    generalize frame (k.mem k.pml4 (pml4Idx va)) = p2 at A3 ⊢
    rw [A3.walk]
    cases h2 : has (k.mem p2 (pdptIdx va)) vmmPresent with
    | false =>
      refine .inr (.inr ⟨walk_absent (x := idx va) (l := 2) h2, ?_⟩)
      rintro rfl
      rfl
    | true =>
      simp only [ensureTable_present h2, ok_bind, Bool.not_true, Bool.false_and, Bool.false_eq_true, if_false]
      cases s2 : has (k.mem p2 (pdptIdx va)) pdePs with
      | true => exact .inr (.inl ⟨1, _, walk_large (x := idx va) (l := 1) (not_paging_link (by decide) s2) h2, rfl⟩)
      | false =>
        have A2 : At paging k.mem (idx va) 3 k.pml4 1 (frame (k.mem p2 (pdptIdx va))) := A3.snoc (paging_link h2 s2)
        rw [← A3.walk, A2.walk]
        generalize frame (k.mem p2 (pdptIdx va)) = p1 at A2 ⊢
        cases h1 : has (k.mem p1 (pdIdx va)) vmmPresent with
        | false =>
          refine .inr (.inr ⟨walk_absent (x := idx va) (l := 1) h1, ?_⟩)
          rintro rfl
          rfl
        | true =>
          cases s1 : has (k.mem p1 (pdIdx va)) pdePs with
          | true => exact .inr (.inl ⟨0, _, walk_large (x := idx va) (l := 0) (not_paging_link (by decide) s1) h1, rfl⟩)
          | false =>
            simp only [ensureTable_present h1, ok_bind]
            exact .inl ⟨_, A2.snoc (paging_link h1 s1), rfl⟩

/-- **`pt_for` without `create`** only looks. -/
theorem ptFor_look (k : Kern) (va : U64) : ∃ o, k.ptFor va false = .ok (o, k) ∧
    match o with
    | some g => At paging k.mem (idx va) 3 k.pml4 0 g
    | none => ∀ e, paging.walk k.mem 3 k.pml4 (idx va) ≠ some (0, e) := by
  rcases k.ptFor_cases va false with ⟨g, hat, hrun⟩ | ⟨l, e, hw, hrun⟩ | ⟨hnone, hrun⟩
  · exact ⟨some g, hrun, hat⟩
  · exact ⟨none, hrun, fun e => by rw [hw]; simp⟩
  · exact ⟨none, hrun rfl, fun e => by rw [hnone]; simp⟩

/-- **`pt_for` takes a page for each missing table.** -/
theorem ptFor_demand (T : Trees k roots is) (his : is.Nodup) (hr : k.pml4 ∈ roots) (hx : pml4Idx va ∈ is)
    (hnone : paging.walk k.mem 3 k.pml4 (idx va) = none) :
    Meets (k.ptFor va true)
      (fun e => e = .panic .vmmOomTables ∧ k.pmm.freeSet.card < paging.gap k.mem 3 k.pml4 (idx va)) fun o =>
      ∃ (S : Finset ℕ) (g : ℕ), o.1 = some g ∧ Dug roots is k.pml4 (idx va) k o.2 S 0 g := by
  have hx' : idx va 3 ∈ is := hx
  unfold ptFor
  simp only [Bool.not_true, Bool.and_false, Bool.false_eq_true, if_false]
  have D : Dug roots is k.pml4 (idx va) k k ∅ 3 k.pml4 := by
    refine ⟨.refl T, .here 3 k.pml4, by rw [Finset.card_empty, Nat.zero_add], rfl, fun y _ => ?_⟩
    rw [max_eq_right split_le, min_eq_left gap_le]
  -- the PML4 entry
  refine (D.table his hr hx' hnone).bind ?_
  rintro k1 ⟨-, S1, D1⟩
  rw [show k1.pml4 = k.pml4 from D1.grown.regs.1]
  change Dug roots is k.pml4 (idx va) k k1 S1 2 (frame (k1.mem k.pml4 (pml4Idx va))) at D1
  generalize frame (k1.mem k.pml4 (pml4Idx va)) = p2 at D1 ⊢
  -- the PDPT entry
  refine (D1.table his hr hx' hnone).bind ?_
  rintro k2 ⟨L2, S2, D2⟩
  change paging.link 1 (k2.mem p2 (pdptIdx va)) = true at L2
  change Dug roots is k.pml4 (idx va) k k2 S2 1 (frame (k2.mem p2 (pdptIdx va))) at D2
  rw [if_neg (by rw [ps_of_link (by decide) L2]; decide)]
  generalize frame (k2.mem p2 (pdptIdx va)) = p1 at D2 ⊢
  -- the PD entry
  have hlarge : ¬ (has (k2.mem p1 (pdIdx va)) vmmPresent && has (k2.mem p1 (pdIdx va)) pdePs) = true := by
    rw [Bool.and_eq_true]
    rintro ⟨hpres, hs⟩
    have hl := link_of_none D2.way ((D2.grown.walk _ hr _ hx').trans hnone) hpres
    rw [show k2.mem p1 (idx va (0 + 1)) = k2.mem p1 (pdIdx va) from rfl] at hl
    rw [ps_of_link (by decide) hl] at hs
    exact absurd hs (by decide)
  rw [if_neg hlarge]
  refine (D2.table his hr hx' hnone).bind ?_
  rintro k3 ⟨-, S3, D3⟩
  exact meets_ok ⟨S3, _, rfl, D3⟩

/-! ## `vmm_map` and `vmm_unmap` -/

/-- **`vmm_map` at an address that is not mapped** adds the tables that are missing, then writes the entry. -/
theorem vmmMap_absent (pa : PAddr) (flags : U64) (T : Trees k roots is) (his : is.Nodup) (hr : k.pml4 ∈ roots)
    (hx : pml4Idx va ∈ is) (hnone : paging.walk k.mem 3 k.pml4 (idx va) = none) :
    Meets (k.vmmMap va pa flags)
      (fun e => e = .panic .vmmOomTables ∧ k.pmm.freeSet.card < paging.gap k.mem 3 k.pml4 (idx va)) fun k' =>
      ∃ k1 S g, Dug roots is k.pml4 (idx va) k k1 S 0 g ∧ has (k1.mem g (ptIdx va)) vmmPresent = false ∧
        k' = k1.set g (ptIdx va) ((pa &&& pteMask) ||| flags) := by
  unfold vmmMap
  refine (ptFor_demand T his hr hx hnone).bind ?_
  rintro ⟨o, k1⟩ ⟨S, g, ho, D⟩
  dsimp only at ho D
  subst ho
  cases hp : has (k1.mem g (ptIdx va)) vmmPresent with
  | true =>
    rw [← D.grown.walk _ hr _ hx, D.way.walk, walk_zero (x := idx va) hp] at hnone
    cases hnone
  | false =>
    simp only [hp, Bool.false_eq_true, if_false]
    exact meets_ok ⟨k1, S, g, D, hp, rfl⟩

/-- **An address that is mapped is refused.** -/
theorem vmmMap_taken (pa : PAddr) (flags : U64) {q : ℕ × U64} (hw : paging.walk k.mem 3 k.pml4 (idx va) = some q) :
    k.vmmMap va pa flags = .error (if q.1 = 0 then .panic .vmmRemap else .wild) := by
  unfold vmmMap
  rcases k.ptFor_cases va true with ⟨g, hat, hrun⟩ | ⟨l, e, hw', hrun⟩ | ⟨hnone, -⟩
  · rw [hat.walk] at hw
    cases hp : has (k.mem g (ptIdx va)) vmmPresent with
    | true =>
      rw [walk_zero (x := idx va) hp] at hw
      cases hw
      simp only [hrun, ok_bind, hp, if_true]
    | false =>
      rw [walk_absent (x := idx va) (l := 0) hp] at hw
      cases hw
  · rw [hw] at hw'
    cases hw'
    rw [hrun]
    rfl
  · rw [hw] at hnone
    cases hnone

/-- **`vmm_map`** adds the tables it needs, then writes the one entry at the end of the walk. It does not return when
the walk already ends at a leaf. -/
theorem vmmMap_spec (pa : PAddr) (flags : U64)
    (T : Trees k roots is) (his : is.Nodup) (hr : k.pml4 ∈ roots) (hx : pml4Idx va ∈ is) :
    Meets (k.vmmMap va pa flags)
      (fun e => (e = .panic .vmmOomTables ∧ k.pmm.freeSet.card < 3) ∨
        ((e = .wild ∨ e = .panic .vmmRemap) ∧ paging.walk k.mem 3 k.pml4 (idx va) ≠ none))
      fun k' => paging.walk k.mem 3 k.pml4 (idx va) = none ∧ ∃ k1 S g, S.card ≤ 3 ∧ Grown roots is k k1 S ∧
        At paging k1.mem (idx va) 3 k.pml4 0 g ∧ has (k1.mem g (ptIdx va)) vmmPresent = false ∧
        k' = k1.set g (ptIdx va) ((pa &&& pteMask) ||| flags) := by
  cases hw : paging.walk k.mem 3 k.pml4 (idx va) with
  | none =>
    refine (vmmMap_absent pa flags T his hr hx hw).mono (fun e he => .inl ⟨he.1, he.2.trans_le gap_le⟩) ?_
    rintro k' ⟨k1, S, g, D, habs, hk'⟩
    exact ⟨rfl, k1, S, g, D.card_eq.trans_le gap_le, D.grown, D.way, habs, hk'⟩
  | some q =>
    rw [vmmMap_taken pa flags hw]
    refine meets_error (.inr ⟨?_, Option.some_ne_none q⟩)
    split_ifs
    · exact .inr rfl
    · exact .inl rfl

/-- **`vmm_unmap`** clears the entry at the end of the walk, if there is a page table for the address. -/
theorem vmmUnmap_spec (h : At paging k.mem (idx va) 3 k.pml4 0 g)
    (hp : has (k.mem g (ptIdx va)) vmmPresent = true) : k.vmmUnmap va = .ok (k.set g (ptIdx va) 0) := by
  obtain ⟨o, hrun, hend⟩ := k.ptFor_look va
  rw [vmmUnmap, hrun, ok_bind]
  cases o with
  | none =>
    refine absurd ?_ (hend (k.mem g (ptIdx va)))
    rw [h.walk]
    exact walk_zero (x := idx va) hp
  | some g' => rw [h.unique hend]; rfl

/-- writing an entry of the lowest level keeps the trees -/
theorem Trees.set (T : Trees k roots is) (P : Patched paging k.mem (k.set g (x 0) e).mem 3 roots is x r g) :
    Trees (k.set g (x 0) e) roots is :=
  ⟨T.pmm, T.phys, P.forest ▸ T.nodup, P.forest ▸ T.inside, P.forest ▸ T.used⟩

theorem patched_set (e : U64)
    (T : Trees k roots is) (his : is.Nodup) (hr : r ∈ roots) (hx : x 3 ∈ is) (hp : At paging k.mem x 3 r 0 g) :
    Patched paging k.mem (k.set g (x 0) e).mem 3 roots is x r g :=
  patched T.nodup his hr hx hp fun h j hj => by rw [set_mem, if_neg hj]

/-- the walk that ends at the entry just written -/
theorem walk_set {y : ℕ → Fin 512}
    (P : Patched paging k.mem (k.set g (x 0) e).mem 3 roots is x r g) (hy : ∀ j ≤ 3, y j = x j) :
    paging.walk (k.set g (x 0) e).mem 3 r y = if has e vmmPresent then some (0, e) else none := by
  rw [P.hit y hy, set_mem_self]
  rfl

end Kern

end Uix
