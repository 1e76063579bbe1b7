/-
Forks and pages that may not be written (`src/core/memory/vmm.c`).

`fork_table` marks every user page copy-on-write, whether it was writable or not, and `vmm_page_fault` makes a marked
page writable. So a page that was mapped read-only for ring 3 can be written after the first fork.

- `Family`: the spaces that descend from one space by forks.
- `Forks.inherited`: what is left of a leaf in each of them.
- `fork_refuses_write_iff`: a write to a read-only page is still refused exactly if the page is not a user page.
-/
import Uix.Memory.NoExec
import Uix.Memory.PageFault

namespace Uix

open Machine Radix Radix.Format List Kern
open Pmm (pageIdx pageAddr)

/-- a space and those that descend from it, by their PML4 pages -/
structure Family where
  kern : Kern
  roots : List ℕ

namespace Family

/-- the space with root `r` made active and forked -/
def fork (s : Family) (r : ℕ) : Except Stop Family := do
  let (pa, k) ← (s.kern.vmmSwitch (pageAddr r)).vmmForkUserSpace
  pure ⟨k, pageIdx pa :: s.roots⟩

/-- one fork or more, each of a space of the family -/
inductive Forks (s : Family) : Family → Prop where
  | one {t : Family} (r : ℕ) : r ∈ s.roots → s.fork r = .ok t → Forks s t
  | more {t u : Family} (r : ℕ) : Forks s t → r ∈ t.roots → t.fork r = .ok u → Forks s u

/-- what forks make of a leaf `e`: a user page is marked, any other leaf stays -/
def Inherits (e e' : U64) : Prop :=
  if has e vmmUser then has e' vmmPresent = true ∧ has e' cowMark = true ∧ has e' vmmUser = true else e' = e

theorem inherits_marked {e : U64} (hp : has e vmmPresent = true) : Inherits e (marked e) := by
  unfold Inherits marked
  split_ifs with hu
  · exact ⟨(has_cow e (by decide) (by decide)).trans hp, mark_cow e, (has_cow e (by decide) (by decide)).trans hu⟩
  · rfl

theorem Inherits.marked {e e' : U64} (h : Inherits e e') : Inherits e (marked e') := by
  unfold Inherits at *
  split_ifs at h ⊢ with hu
  · obtain ⟨hp, -, hu'⟩ := h
    have := inherits_marked hp
    rwa [Inherits, if_pos hu'] at this
  · rw [h]
    exact if_neg hu

/-- spaces of 4 KiB pages, each a tree of its own -/
structure Sound (s : Family) : Prop where
  trees : Kern.Trees s.kern s.roots lowerHalf
  plain : ∀ r ∈ s.roots, ∀ p ∈ paging.leaves s.kern.mem 3 r lowerHalf, p.1 = 0

variable {s t : Family} {r : ℕ} {e : U64}

/-- the space with root `r`, made active -/
theorem Sound.pml4 (h : Sound s) (hr : r ∈ s.roots) : (s.kern.vmmSwitch (pageAddr r)).pml4 = r := by
  have hin := h.trees.inside r (root_mem_forest hr)
  exact Pmm.pageIdx_pageAddr (lt_of_lt_of_le hin h.trees.pmm.small)

theorem Sound.switch (h : Sound s) (r : ℕ) : Trees (s.kern.vmmSwitch (pageAddr r)) s.roots lowerHalf :=
  ⟨h.trees.pmm, h.trees.phys, h.trees.nodup, h.trees.inside, h.trees.used⟩

theorem Sound.spacePre (h : Sound s) (hr : r ∈ s.roots) : SpacePre (s.kern.vmmSwitch (pageAddr r)) := by
  have hroot := h.pml4 hr
  refine ⟨h.trees.pmm, h.trees.phys, ?_, ?_, ?_⟩ <;> rw [hroot]
  · exact tree_of_forest h.trees.nodup hr
  · exact fun g hg => h.trees.used g (mem_forest.2 ⟨r, hr, hg⟩)
  · exact h.plain r hr

/-- the walks after a fork of the space with root `r`: parent and child have the parent's with the leaf marked -/
def Marks (s t : Family) (r d : ℕ) : Prop :=
  ∀ r' ∈ t.roots, ∀ y : ℕ → Fin 512, y 3 ∈ lowerHalf → paging.walk t.kern.mem 3 r' y =
    if r' = r ∨ r' = d then (paging.walk s.kern.mem 3 r y).map (Prod.map id marked) else paging.walk s.kern.mem 3 r' y

/-- **One fork** keeps the family sound and marks the leaves of parent and child. -/
theorem Sound.fork (h : Sound s) (hr : r ∈ s.roots) (hf : s.fork r = .ok t) :
    Sound t ∧ ∃ d, t.roots = d :: s.roots ∧ Marks s t r d := by
  have hroot := h.pml4 hr
  obtain ⟨⟨pa, k'⟩, hrun, ht⟩ := bind_ok.1 hf
  obtain ⟨d, S, hpa, hd, F⟩ := (vmmFork_spec (h.spacePre hr)).of_eq hrun
  simp only at hpa F
  have hd52 := Pmm.lt_of_free hd h.trees.pmm.small
  obtain rfl : (⟨k', d :: s.roots⟩ : Family) = t := by
    rw [pure_ok, hpa, Pmm.pageIdx_pageAddr hd52] at ht
    exact ht
  have hr' : (s.kern.vmmSwitch (pageAddr r)).pml4 ∈ s.roots := by rwa [hroot]
  have hmarks : Marks s ⟨k', d :: s.roots⟩ r d := by
    intro r' hmem y hy
    by_cases hc : r' = r ∨ r' = d
    · rw [if_pos hc]
      have := F.walk_eq (r := r') (hroot.symm ▸ hc) hy
      rwa [hroot] at this
    · rw [if_neg hc]
      rw [not_or] at hc
      have hold : r' ∈ s.roots := (mem_cons.1 hmem).resolve_left hc.2
      exact ((h.switch r).forked_other hr' F hold (hroot.symm ▸ hc.1)).walk hy
  refine ⟨⟨(h.switch r).forked hr' F, fun r' hmem p hp => ?_⟩, d, rfl, hmarks⟩
  obtain ⟨y, hy, hw⟩ := mem_leaves.1 hp
  rw [hmarks r' hmem y hy] at hw
  split_ifs at hw with hc
  · obtain ⟨q, hq, rfl⟩ := Option.map_eq_some_iff.1 hw
    exact h.plain r hr q (mem_leaves.2 ⟨y, hy, hq⟩)
  · have hold : r' ∈ s.roots := (mem_cons.1 hmem).resolve_left fun e => hc (.inr e)
    exact h.plain r' hold p (mem_leaves.2 ⟨y, hy, hw⟩)

/-- **What is left of a leaf** in every space of the family, after any number of forks. -/
theorem Forks.inherited {k : Kern} (h : Sound ⟨k, [r]⟩) (va : UserAddr)
    (hw : paging.walk k.mem 3 r (idx va.1) = some (0, e)) (hp : has e vmmPresent = true) (hf : Forks ⟨k, [r]⟩ t) :
    Sound t ∧
      ∀ r' ∈ t.roots, ∃ e', paging.walk t.kern.mem 3 r' (idx va.1) = some (0, e') ∧ Inherits e e' := by
  induction hf with
  | one r₁ hr₁ hrun =>
    obtain rfl : r₁ = r := mem_singleton.1 hr₁
    obtain ⟨ht, d, hroots, hmarks⟩ := h.fork hr₁ hrun
    refine ⟨ht, fun r' hr' => ⟨marked e, ?_, inherits_marked hp⟩⟩
    have hc : r' = r₁ ∨ r' = d := by
      rw [hroots] at hr'
      simpa [or_comm] using hr'
    rw [hmarks r' hr' _ va.lower, if_pos hc, hw]
    rfl
  | more r₁ _ hr₁ hrun ih =>
    obtain ⟨ht, hleaf⟩ := ih
    obtain ⟨hu, d, hroots, hmarks⟩ := ht.fork hr₁ hrun
    refine ⟨hu, fun r' hr' => ?_⟩
    rw [hmarks r' hr' _ va.lower]
    by_cases hc : r' = r₁ ∨ r' = d
    · obtain ⟨e', hw', hi⟩ := hleaf r₁ hr₁
      rw [if_pos hc, hw']
      exact ⟨Uix.marked e', rfl, hi.marked⟩
    · rw [if_neg hc]
      rw [hroots] at hr'
      exact hleaf r' ((mem_cons.1 hr').resolve_left fun e => hc (.inr e))

/-- a write fault at `va` in the space with root `r` is refused, and the page stays read-only -/
def Refuses (k : Kern) (r : ℕ) (va : U64) : Prop :=
  (∀ err : U64, err &&& 3 = 3 →
    (k.vmmSwitch (pageAddr r)).vmmPageFault va err = .ok (-1, k.vmmSwitch (pageAddr r))) ∧
  ∃ e, paging.walk k.mem 3 r (idx va) = some (0, e) ∧ has e writeBit = false

/-- the handler refuses a write to a page without the mark -/
theorem Sound.refuses {va : UserAddr} (h : Sound s) (hr : r ∈ s.roots)
    (hw : paging.walk s.kern.mem 3 r (idx va.1) = some (0, e)) (hnw : has e writeBit = false)
    (hnc : has e cowMark = false) : Refuses s.kern r va.1 := by
  refine ⟨fun err herr => ?_, e, hw, hnw⟩
  have hnone : ∀ g e', ¬ CowLeaf (s.kern.vmmSwitch (pageAddr r)) va.1 g e' := fun g e' L => by
    have hw' := L.walk
    rw [h.pml4 hr] at hw'
    have hee : (0, e') = (0, e) := Option.some.inj (hw'.symm.trans hw)
    rw [Prod.mk.injEq] at hee
    rw [← hee.2, L.mark] at hnc
    exact absurd hnc (by decide)
  obtain ⟨res, hrun, hres⟩ := (vmmPageFault_spec (h.switch r).pmm va herr).exists_ok fun st hst => by
    obtain ⟨-, -, g, e', L, -⟩ := hst
    exact hnone g e' L
  rcases hres with ⟨rfl, -⟩ | ⟨-, g, e', L, -⟩
  · exact hrun
  · exact absurd L (hnone g e')

/-- the handler does not refuse a write to a marked user page -/
theorem Sound.not_refuses {va : UserAddr} (h : Sound s) (hr : r ∈ s.roots)
    (hw : paging.walk s.kern.mem 3 r (idx va.1) = some (0, e)) (hp : has e vmmPresent = true)
    (hc : has e cowMark = true) (hu : has e vmmUser = true) : ¬ Refuses s.kern r va.1 := by
  rintro ⟨href, -⟩
  obtain ⟨g, hat, hent, -⟩ := exists_at_of_walk hw
  have hspec := vmmPageFault_spec (h.switch r).pmm va (show (3 : U64) &&& 3 = 3 by decide)
  rcases hspec.of_eq (href 3 (by decide)) with ⟨-, hnone⟩ | ⟨hz, -⟩
  · refine hnone g e ⟨?_, hent, hp, hc, hu⟩
    rw [h.pml4 hr]
    exact hat
  · exact absurd hz (by simp)

end Family

/-- **Fork and pages that may not be written.** Let a space of 4 KiB pages map the page of `va` without `VMM_WRITE` and
without the mark. After any number of forks of it and its descendants, a write fault there is refused and the page is
read-only, in the parent and in every child, exactly if the page was mapped without `VMM_USER`. -/
theorem fork_refuses_write_iff (k : Kern) (T : Kern.Trees k [k.pml4] lowerHalf)
    (hplain : ∀ p ∈ paging.leaves k.mem 3 k.pml4 lowerHalf, p.1 = 0) (va : UserAddr) (e : U64)
    (hw : paging.walk k.mem 3 k.pml4 (idx va.1) = some (0, e)) (hnw : has e writeBit = false)
    (hnc : has e cowMark = false) (t : Family) (ht : Family.Forks ⟨k, [k.pml4]⟩ t) :
    ∀ r ∈ t.roots, (Family.Refuses t.kern r va.1 ↔ has e vmmUser = false) := by
  have hs : Family.Sound ⟨k, [k.pml4]⟩ := ⟨T, fun r hr => by rw [List.mem_singleton.1 hr]; exact hplain⟩
  obtain ⟨-, -, -, hp⟩ := exists_at_of_walk hw
  obtain ⟨ht, hleaf⟩ := Family.Forks.inherited hs va hw hp ht
  intro r hr
  obtain ⟨e', hw', hi⟩ := hleaf r hr
  unfold Family.Inherits at hi
  cases hu : has e vmmUser with
  | true =>
    rw [if_pos hu] at hi
    exact ⟨fun href => absurd href (ht.not_refuses hr hw' hi.1 hi.2.1 hi.2.2), fun hc => absurd hc (by decide)⟩
  | false =>
    rw [if_neg (by rw [hu]; decide)] at hi
    subst hi
    exact ⟨fun _ => rfl, fun _ => ht.refuses hr hw' hnw hnc⟩

/-! ## A read-only page -/

theorem onePage_sound {e : U64} (hp : has e vmmPresent = true) : Family.Sound ⟨onePage e, [1]⟩ := by
  refine ⟨onePage_lower e, fun r hr => ?_⟩
  rw [mem_singleton.1 hr]
  exact (onePage_spacePre hp).plain

/-- the fork of the space of one page, with pages to spare -/
theorem onePage_forked {e : U64} (hp : has e vmmPresent = true) : ∃ d k',
    (onePage e).vmmForkUserSpace = .ok (pageAddr d, k') ∧ Family.Forks ⟨onePage e, [1]⟩ ⟨k', [d, 1]⟩ ∧
      k'.pmm.freeSet ≠ ∅ := by
  obtain ⟨pa, k', hrun⟩ := onePage_forks hp
  obtain ⟨d, S, hpa, hd, F⟩ := (vmmFork_spec (onePage_spacePre hp)).of_eq hrun
  simp only at hpa F
  subst hpa
  have hd52 : d < 2 ^ 52 := Pmm.lt_of_free hd (onePage_spacePre hp).pmm.small
  refine ⟨d, k', hrun, Family.Forks.one 1 (mem_singleton_self 1) ?_, fun hempty => ?_⟩
  · have hswitch : (onePage e).vmmSwitch (pageAddr 1) = onePage e := rfl
    simp only [Family.fork, hswitch, hrun, ok_bind, Pmm.pageIdx_pageAddr hd52]
    rfl
  · -- four pages are taken of 58
    have hcard := (F.taken (by simp [onePage, Pmm.fresh])).2
    rw [show (onePage e).pml4 = 1 from rfl, show (onePage e).mem = single e from rfl,
      single_tables zero_mem_lowerHalf lowerHalf_nodup] at hcard
    have hfree := F.draws.free
    rw [hempty, show (onePage e).pmm.freeSet = Finset.Ico 6 64 from Pmm.freeSet_fresh _ _ (by decide), eq_comm,
      Finset.sdiff_eq_empty_iff_subset] at hfree
    have := Finset.card_le_card hfree
    rw [hcard] at this
    exact absurd this (by decide)

/-- **A page mapped read-only for ring 3**: the child's write fault there is not refused. -/
theorem fork_grants_write : ∃ d k' k'', (Kern.onePage 0x5005#64).vmmForkUserSpace = .ok (pageAddr d, k') ∧
    paging.walk (Kern.onePage 0x5005#64).mem 3 1 (idx 0x400000#64) = some (0, 0x5005#64) ∧
    (k'.vmmSwitch (pageAddr d)).vmmPageFault 0x400000#64 7 = .ok (0, k'') := by
  have hp : has 0x5005#64 vmmPresent = true := by decide
  have hw := Kern.onePage_walk hp
  obtain ⟨d, k', hrun, hforks, hfree⟩ := onePage_forked hp
  obtain ⟨ht, hleaf⟩ := Family.Forks.inherited (onePage_sound hp) ⟨0x400000#64, by decide⟩ hw hp hforks
  obtain ⟨e', hw', hi⟩ := hleaf d List.mem_cons_self
  rw [Family.Inherits, if_pos (by decide)] at hi
  have hroot := ht.pml4 (r := d) List.mem_cons_self
  obtain ⟨g, hat, hent, -⟩ := exists_at_of_walk hw'
  obtain ⟨⟨res, k''⟩, hfault, hres⟩ := (Kern.vmmPageFault_spec (ht.switch d).pmm ⟨0x400000#64, by decide⟩
    (show (7 : U64) &&& 3 = 3 by decide)).exists_ok fun st hst => hfree hst.2.1
  rcases hres with ⟨-, hnone⟩ | ⟨hz, -⟩
  · refine absurd ⟨?_, hent, hi.1, hi.2.1, hi.2.2⟩ (hnone g e')
    rw [hroot]
    exact hat
  · simp only at hz
    exact ⟨d, k', k'', hrun, hw, hz ▸ hfault⟩

theorem fork_refuses_write_page : ∃ d k', (Kern.onePage 0x5001#64).vmmForkUserSpace = .ok (pageAddr d, k') ∧
    Family.Refuses k' d 0x400000#64 ∧ Family.Refuses k' 1 0x400000#64 := by
  have hp : has 0x5001#64 vmmPresent = true := by decide
  obtain ⟨d, k', hrun, hforks, -⟩ := onePage_forked hp
  have hs := onePage_sound hp
  have hrefuses := fork_refuses_write_iff (Kern.onePage 0x5001#64) hs.trees (hs.plain 1 (List.mem_singleton_self 1))
    ⟨0x400000#64, by decide⟩ _ (Kern.onePage_walk hp) (by decide) (by decide) _ hforks
  exact ⟨d, k', hrun, (hrefuses d (by simp)).2 (by decide), (hrefuses 1 (by simp)).2 (by decide)⟩

end Uix
