/-
A new user space while it is filled: pages are taken, mapped writable and written, and nothing else changes. All that
`elf_load`, `do_execve` and `user_task_create` do to a space they have just made is of this kind.

- `Filling`: the pages taken so far hold all tables and pages of the space; no other page has changed, and the PML4 only
  in its user half.
- `Filling.mapped`, `Filling.stored`: one page more, one byte more.
- `Filling.kernelHalf`: the kernel half translates as before.
- `Filling.beside`: so do the other spaces.
- `Filling.added`: a page more, as a program sees it.
-/
import Uix.Memory.MapPage
import Uix.Memory.Store
import Uix.Memory.VmmClone

namespace Uix.Kern

open Machine Radix Radix.Format Bytes List Function
open Pmm (pageIdx pageAddr Takes Draws)

/-- the active space is one that `vmm_create_space` has just made -/
structure FreshSpace (k : Kern) : Prop where
  pmm : k.pmm.Ok
  phys : k.pmm.bitmapLen ≤ 2 ^ 40
  inside : k.pml4 < k.pmm.bitmapLen
  used : k.pml4 ∉ k.pmm.freeSet
  cr3 : frame k.cr3 = k.pml4
  lower : ∀ i ∈ lowerHalf, k.mem k.pml4 i = 0

/-- `k` is `k₀` with the active space filled from the pages `S` -/
structure Filling (k₀ k : Kern) (S : Finset ℕ) : Prop where
  spaces : Spaces k [k₀.pml4]
  takes : Takes k₀.pmm S k.pmm
  regs : SameRegs k₀ k
  writable : Writable k
  pages : ∀ f ∈ frames k.mem k₀.pml4, f ∈ S
  tables : ∀ g ∈ paging.tables k.mem 3 k₀.pml4 lowerHalf, g = k₀.pml4 ∨ g ∈ S
  outside : ∀ f, f ∉ S → f ≠ k₀.pml4 → k.mem f = k₀.mem f
  upper : ∀ i, i ∉ lowerHalf → k.mem k₀.pml4 i = k₀.mem k₀.pml4 i

section Filling

variable {k₀ k k' : Kern} {S S' : Finset ℕ} {va : UserAddr} {flags : U64} {t : ℕ}

theorem SpaceCreated.freshSpace {d : ℕ} (C : SpaceCreated k k' d) (hphys : k.pmm.bitmapLen ≤ 2 ^ 40) :
    (k'.vmmSwitch (pageAddr d)).FreshSpace ∧ (k'.vmmSwitch (pageAddr d)).pml4 = d := by
  have hlt := (Pmm.mem_freeSet.1 C.fresh).1
  have hroot : (k'.vmmSwitch (pageAddr d)).pml4 = d := Pmm.pageIdx_pageAddr (by omega)
  refine ⟨⟨C.takes.ok, C.takes.len ▸ hphys, ?_, ?_, ?_, ?_⟩, hroot⟩
  · rw [hroot]
    exact C.takes.len ▸ hlt
  · rw [hroot]
    exact C.takes.draws.taken_notMem_free (Finset.mem_singleton_self d)
  · rw [hroot]
    exact frame_pageAddr (by omega)
  · rw [hroot]
    exact C.lower

theorem FreshSpace.filling (h : FreshSpace k) : Filling k k ∅ := by
  obtain ⟨ht, hl, hk⟩ := empty_space h.lower
  have hfr : frames k.mem k.pml4 = [] := by rw [frames, hl, map_nil]
  have hnone : ∀ {P : ℕ → Prop}, ∀ f ∈ ([] : List ℕ), P f := fun f hf => absurd hf not_mem_nil
  have hspace : Space k k.pml4 := by
    refine ⟨?_, ?_, ?_, ?_, ?_, ?_⟩
    · rw [ht]
      exact nodup_singleton _
    · rw [ht, forall_mem_singleton]
      exact ⟨h.inside, h.used⟩
    · rw [hl]
      exact fun p hp => absurd hp not_mem_nil
    · rw [hk]
      exact fun p hp => absurd hp not_mem_nil
    · rw [hfr]
      exact hnone
    · rw [hfr]
      exact nodup_nil
  constructor
  case spaces =>
    refine (Spaces.nil h.pmm h.phys).cons hspace (fun _ _ => not_mem_nil) ?_ hnone hnone
    rw [hfr]
    exact hnone
  case takes => exact .refl h.pmm
  case regs => exact ⟨rfl, rfl, rfl⟩
  case writable =>
    intro p hp
    rw [hl] at hp
    exact absurd hp not_mem_nil
  case pages =>
    rw [hfr]
    exact hnone
  case tables =>
    rw [ht, forall_mem_singleton]
    exact .inl rfl
  case outside => exact fun _ _ _ => rfl
  case upper => exact fun _ _ => rfl

theorem Filling.active (F : Filling k₀ k S) : k.pml4 ∈ [k₀.pml4] := mem_singleton.2 F.regs.1

/-- a page taken, with any contents, and mapped -/
theorem Filling.attached {row : Fin 512 → U64} (F : Filling k₀ k S) (ht : t ∈ k.pmm.freeSet)
    (M : PageMapped { k with mem := update k.mem t row } k' [k₀.pml4] va flags t S')
    (hf : MapFlags flags) (hw : has flags writeBit = true) : Filling k₀ k' (S ∪ S') := by
  have hfree : ∀ g ∈ paging.forest k.mem 3 [k₀.pml4] lowerHalf, g ≠ t := fun g hg hc =>
    F.spaces.trees.used g hg (hc ▸ ht)
  have hA : Agree paging k.mem (update k.mem t row) 3 k₀.pml4 lowerHalf :=
    Agree.setPage (fun hc => hfree t hc rfl) row (mem_singleton_self _)
  have ht40 := Pmm.lt_of_free ht F.spaces.trees.phys
  have hleaf : ∀ p ∈ paging.leaves k'.mem 3 k₀.pml4 lowerHalf,
      p ∈ paging.leaves k.mem 3 k₀.pml4 lowerHalf ∨ p = (0, pageEntry t flags) := by
    intro p hp
    obtain ⟨a, b, h1, h2⟩ := M.leaves
    rw [show ({ k with mem := update k.mem t row } : Kern).pml4 = k₀.pml4 from F.regs.1] at h1 h2
    rw [h2, mem_append, mem_append, mem_singleton] at hp
    rw [← hA.leaves, h1, mem_append]
    rcases hp with (hp | hp) | hp
    · exact .inl (.inl hp)
    · exact .inr hp
    · exact .inl (.inr hp)
  obtain ⟨r1, r2, r3⟩ := M.regs
  constructor
  case spaces => exact M.spaces
  case takes => exact F.takes.trans M.takes
  case regs => exact ⟨r1.trans F.regs.1, r2.trans F.regs.2.1, r3.trans F.regs.2.2⟩
  case writable =>
    intro p hp
    rw [show k'.pml4 = k₀.pml4 from r1.trans F.regs.1] at hp
    rcases hleaf p hp with hp | rfl
    · exact F.writable p (F.regs.1.symm ▸ hp)
    · exact pageEntry_has t hw
  case pages =>
    intro f hf'
    obtain ⟨p, hp, rfl⟩ := mem_map.1 hf'
    rw [Finset.mem_union]
    rcases hleaf p hp with hp | rfl
    · exact .inl (F.pages _ (mem_map.2 ⟨p, hp, rfl⟩))
    · right
      rw [frame_pageEntry ht40 hf]
      exact M.page
  case tables =>
    intro g hg
    rw [Finset.mem_union]
    rcases M.sub g (mem_forest.2 ⟨_, mem_singleton_self _, hg⟩) with hg | hg
    · obtain ⟨r, hr, hg⟩ := mem_forest.1 hg
      rw [mem_singleton.1 hr, hA.tables] at hg
      exact (F.tables g hg).imp_right .inl
    · exact .inr (.inr hg)
  case outside =>
    intro f hfS hfr
    rw [Finset.mem_union, not_or] at hfS
    have hff : f ∉ paging.forest (update k.mem t row) 3 [k₀.pml4] lowerHalf := fun hc => by
      obtain ⟨r, hr, hg⟩ := mem_forest.1 hc
      rw [mem_singleton.1 hr, hA.tables] at hg
      exact (F.tables f hg).elim hfr hfS.1
    rw [M.outside f hfS.2 hff]
    refine (update_of_ne ?_ _ _).trans (F.outside f hfS.1 hfr)
    rintro rfl
    exact hfS.2 M.page
  case upper =>
    intro i hi
    rw [M.upper _ (mem_singleton_self _) i hi]
    refine Eq.trans ?_ (F.upper i hi)
    exact congrFun (update_of_ne (hfree _ (root_mem_forest (mem_singleton_self _))) _ _) i

theorem Filling.mapped {p : Pmm} (row : Fin 512 → U64) (F : Filling k₀ k S) (ht : t ∈ k.pmm.freeSet)
    (hT : Takes k.pmm {t} p) (hf : UserFlags flags) (hw : has flags writeBit = true) :
    Meets (({ k with mem := update k.mem t row }.setPmm p).vmmMap va.1 (pageAddr t) flags) (MapStop k va.1)
      fun k' => ∃ S', Filling k₀ k' (S ∪ S') ∧
        PageMapped { k with mem := update k.mem t row } k' [k₀.pml4] va flags t S' := by
  have hout : t ∉ paging.forest k.mem 3 [k₀.pml4] lowerHalf := fun hc => F.spaces.trees.used t hc ht
  have hA : Agree paging k.mem (update k.mem t row) 3 k₀.pml4 lowerHalf :=
    Agree.setPage hout row (mem_singleton_self _)
  refine (vmmMap_mapped (F.spaces.setPage hout row) F.active hf ht hT).mono ?_ ?_
  · rintro st (hst | ⟨hst, hw⟩)
    · exact .inl hst
    · refine .inr ⟨hst, ?_⟩
      change paging.walk (update k.mem t row) 3 k.pml4 (idx va.1) ≠ none at hw
      rw [F.regs.1] at hw ⊢
      rwa [hA.walk va.lower] at hw
  · rintro k' ⟨S', M⟩
    exact ⟨S', F.attached ht M hf.1 hw, M⟩

/-- **A new page, as it was.** -/
theorem Filling.mapPage_spec (F : Filling k₀ k S) (hf : UserFlags flags) (hw : has flags writeBit = true) :
    Meets (k.mapPage va.1 flags) (MapStop k va.1) fun r => ∃ t S', Filling k₀ r.2 (S ∪ S') ∧
      t ∈ k.pmm.freeSet ∧ PageMapped k r.2 [k₀.pml4] va flags t S' := by
  refine (Kern.mapPage_spec F.spaces F.active hf).mono (fun _ hst => hst) ?_
  rintro ⟨pa, k'⟩ ⟨t, S', -, ht, M⟩
  have M' : PageMapped { k with mem := update k.mem t (k.mem t) } k' [k₀.pml4] va flags t S' := by
    rw [update_eq_self]
    exact M
  exact ⟨t, S', F.attached ht M' hf.1 hw, ht, M⟩

/-- **A byte in a page of the space.** -/
theorem Filling.stored {e : U64} (F : Filling k₀ k S) (hw : paging.walk k.mem 3 k.pml4 (idx va.1) = some (0, e))
    (o : ℕ) (b : BitVec 8) : Filling k₀ (k.putByte (frame e) o b) S := by
  rw [F.regs.1] at hw
  have hmem : frame e ∈ frames k.mem k₀.pml4 := frame_mem_frames (p := (0, e)) va.lower hw
  have hout := F.spaces.apart _ (mem_singleton_self _) _ hmem
  have hA : Agree paging k.mem (k.putByte (frame e) o b).mem 3 k₀.pml4 lowerHalf :=
    Agree.setPage hout _ (mem_singleton_self _)
  have hne : k₀.pml4 ≠ frame e := fun hc => hout (hc ▸ root_mem_forest (mem_singleton_self _))
  constructor
  case spaces => exact F.spaces.setPage hout _
  case takes => exact F.takes
  case regs => exact F.regs
  case writable =>
    intro p hp
    change p ∈ paging.leaves (k.putByte (frame e) o b).mem 3 k.pml4 lowerHalf at hp
    rw [F.regs.1, hA.leaves] at hp
    exact F.writable p (F.regs.1.symm ▸ hp)
  case pages =>
    rw [frames, hA.leaves]
    exact F.pages
  case tables =>
    rw [hA.tables]
    exact F.tables
  case outside =>
    intro f hfS hfr
    rw [putByte_of_ne, F.outside f hfS hfr]
    rintro rfl
    exact hfS (F.pages _ hmem)
  case upper =>
    intro i hi
    rw [putByte_of_ne hne]
    exact F.upper i hi

/-- a write of the kernel -/
theorem Filling.write_spec {ring3 : Bool} {b : BitVec 8} (F : Filling k₀ k S) (hcr3 : frame k₀.cr3 = k₀.pml4) :
    Meets (k.write ring3 va.1 b) (fun st => st = .panic .unhandled) fun k' => Filling k₀ k' S ∧ ∃ e,
      paging.walk k.mem 3 k.pml4 (idx va.1) = some (0, e) ∧ k' = k.putByte (frame e) (va.1.toNat % pageSize) b := by
  have hcr3' : frame k.cr3 = k.pml4 := by rw [F.regs.1, F.regs.2.1, hcr3]
  refine (F.spaces.write_writable F.active hcr3' F.writable).mono (fun _ hst => hst) ?_
  rintro k' ⟨e, hw, rfl⟩
  exact ⟨F.stored hw _ b, e, hw, rfl⟩

/-- **The kernel half translates as before**, when its tables are pages in use. -/
theorem Filling.kernelHalf (F : Filling k₀ k S) {x : ℕ → Fin 512} (hx : x 3 ∉ lowerHalf)
    (hk : ∀ g ∈ paging.tablesAt k₀.mem 3 k₀.pml4 (x 3), g ∉ k₀.pmm.freeSet ∧ g ≠ k₀.pml4) :
    mmuWalk k.mem 3 k₀.pml4 x = mmuWalk k₀.mem 3 k₀.pml4 x := by
  refine mmuWalk_congr (F.upper _ hx) fun g hg => ?_
  exact F.outside g (F.takes.draws.notMem (hk g hg).1) (hk g hg).2

end Filling

/-! ## Other spaces -/

section Others

variable {k₀ k : Kern} {S : Finset ℕ} {roots : List ℕ}

theorem Filling.space (F : Filling k₀ k S) : Space k k₀.pml4 := by
  have hr := mem_singleton_self k₀.pml4
  have hforest : ∀ g ∈ paging.tables k.mem 3 k₀.pml4 lowerHalf, g ∈ paging.forest k.mem 3 [k₀.pml4] lowerHalf :=
    fun g hg => mem_forest.2 ⟨_, hr, hg⟩
  refine ⟨tree_of_forest F.spaces.trees.nodup hr, ?_, F.spaces.plain _ hr, F.spaces.links _ hr, ?_, F.spaces.own _ hr⟩
  · exact fun g hg => ⟨F.spaces.trees.inside g (hforest g hg), F.spaces.trees.used g (hforest g hg)⟩
  · exact fun f hf => ⟨F.spaces.inside _ hr f hf, F.spaces.used _ hr f hf⟩

/-- a page in use before, other than the PML4, is as it was -/
theorem Filling.kept (F : Filling k₀ k S) {g : ℕ} (hg : g ∉ k₀.pmm.freeSet) (hne : g ≠ k₀.pml4) :
    g ∉ S ∧ k.mem g = k₀.mem g :=
  ⟨F.takes.draws.notMem hg, F.outside g (F.takes.draws.notMem hg) hne⟩

/-- **The other spaces** are as they were, and the new one joins them. -/
theorem Filling.beside (F : Filling k₀ k S) (h : Spaces k₀ (k₀.pml4 :: roots)) :
    Spaces k (k₀.pml4 :: roots) ∧ ∀ r ∈ roots, Agree paging k₀.mem k.mem 3 r lowerHalf := by
  have hcons : paging.forest k₀.mem 3 (k₀.pml4 :: roots) lowerHalf =
      paging.tables k₀.mem 3 k₀.pml4 lowerHalf ++ paging.forest k₀.mem 3 roots lowerHalf := flatMap_cons
  have hnodup := h.trees.nodup
  rw [hcons] at hnodup
  have hroot : k₀.pml4 ∉ paging.forest k₀.mem 3 roots lowerHalf := fun hc =>
    (nodup_append.1 hnodup).2.2 _ mem_cons_self _ hc rfl
  have hne : ∀ g ∈ paging.forest k₀.mem 3 roots lowerHalf, g ≠ k₀.pml4 := fun g hg hc => hroot (hc ▸ hg)
  have hA : ∀ r ∈ roots, Agree paging k₀.mem k.mem 3 r lowerHalf := fun r hr => Agree.of_tables fun g hg =>
    have hg' := mem_forest.2 ⟨r, hr, hg⟩
    (F.kept (h.tail.trees.used g hg') (hne g hg')).2
  have hcounts : k.pmm.counts = k₀.pmm.counts := by rw [Pmm.counts, F.takes.refs, Pmm.counts]
  have hforest : paging.forest k.mem 3 roots lowerHalf = paging.forest k₀.mem 3 roots lowerHalf :=
    flatMap_congr fun r hr => (hA r hr).tables
  have hframes : ∀ r ∈ roots, frames k.mem r = frames k₀.mem r := fun r hr => by rw [frames, (hA r hr).leaves, frames]
  have hfree : ∀ g ∈ S, g ∈ k₀.pmm.freeSet := fun g hg => F.takes.sub hg
  refine ⟨(h.tail.agree hA F.takes.draws fun f hf => hcounts ▸ hf).cons F.space ?_ ?_ ?_ ?_, hA⟩
  · intro g hg
    rw [hforest]
    rcases F.tables g hg with rfl | hS
    · exact hroot
    · exact fun hc => h.tail.trees.used g hc (hfree g hS)
  · intro f hf
    rw [hforest]
    refine ⟨fun hc => F.spaces.apart _ (mem_singleton_self _) f hf ?_, fun hc => ?_⟩
    · exact mem_forest.2 ⟨_, mem_singleton_self _, hc⟩
    · exact h.tail.trees.used f hc (hfree f (F.pages f hf))
  · intro r hr f hf hc
    rw [hframes r hr] at hf
    rcases F.tables f hc with rfl | hS
    · exact h.apart r (mem_cons_of_mem _ hr) _ hf (root_mem_forest mem_cons_self)
    · exact h.tail.used r hr f hf (hfree f hS)
  · intro r hr f hf hd
    rw [hframes r hr] at hf
    exact absurd (hfree f (F.pages f hd)) (h.tail.used r hr f hf)

end Others

/-! ## A page added -/

/-- two addresses of one page -/
def SamePage (va va' : UserAddr) : Prop := ∀ j ≤ 3, idx va.1 j = idx va'.1 j

theorem samePage_iff (a va : UserAddr) : SamePage a va ↔ a.1.toNat / pageSize = va.1.toNat / pageSize := by
  have h1 : a.1.toNat < 2 ^ 47 := BitVec.lt_def.1 a.2
  have h2 : va.1.toNat < 2 ^ 47 := BitVec.lt_def.1 va.2
  rw [SamePage, indices_eq_iff, pageSize]
  omega

/-- seen from the space `r`, `k₁` is `k` with the page `t`, of the given contents, mapped at `va` -/
structure PageAdded (k k₁ : Kern) (r : ℕ) (va : UserAddr) (flags : U64) (t : ℕ) (row : Fin 512 → U64) : Prop where
  absent : ∀ va', SamePage va' va → paging.walk k.mem 3 r (idx va'.1) = none
  hit : ∀ va', SamePage va' va → paging.walk k₁.mem 3 r (idx va'.1) = some (0, pageEntry t flags)
  miss : ∀ va', ¬ SamePage va' va → paging.walk k₁.mem 3 r (idx va'.1) = paging.walk k.mem 3 r (idx va'.1)
  kept : ∀ f ∈ frames k.mem r, k₁.mem f = k.mem f
  row : k₁.mem t = row

theorem Filling.added {k₀ k k₁ : Kern} {S S' : Finset ℕ} {va : UserAddr} {flags : U64} {t : ℕ} {row : Fin 512 → U64}
    (F : Filling k₀ k S) (ht : t ∈ k.pmm.freeSet)
    (M : PageMapped { k with mem := update k.mem t row } k₁ [k₀.pml4] va flags t S') :
    PageAdded k k₁ k₀.pml4 va flags t row := by
  have hr := mem_singleton_self k₀.pml4
  have hroot : ({ k with mem := update k.mem t row } : Kern).pml4 = k₀.pml4 := F.regs.1
  have hout : t ∉ paging.forest k.mem 3 [k₀.pml4] lowerHalf := fun hc => F.spaces.trees.used t hc ht
  have hA : Agree paging k.mem (update k.mem t row) 3 k₀.pml4 lowerHalf := Agree.setPage hout row hr
  have h1 : Spaces { k with mem := update k.mem t row } [k₀.pml4] := F.spaces.setPage hout row
  constructor
  case absent =>
    intro va' hva'
    have habs := M.absent
    rw [hroot] at habs
    rw [← hA.walk va'.lower, walk_index hva']
    exact habs
  case hit =>
    intro va' hva'
    rw [← hroot]
    exact M.hit _ hva'
  case miss =>
    intro va' hva'
    rw [SamePage] at hva'
    push Not at hva'
    rw [M.miss _ hr _ va'.lower (.inr hva')]
    exact hA.walk va'.lower
  case kept =>
    intro f hf
    have hne : f ≠ t := fun hc => F.spaces.used _ hr f hf (hc ▸ ht)
    have hf' : f ∈ frames (update k.mem t row) k₀.pml4 := by
      rw [frames, hA.leaves]
      exact hf
    rw [M.outside f (M.takes.draws.notMem (h1.used _ hr f hf')) (h1.apart _ hr f hf')]
    exact update_of_ne hne _ _
  case row =>
    rw [M.contents]
    exact update_self ..

/-- a page that is still free is as it was -/
theorem Filling.free_kept {k₀ k : Kern} {S : Finset ℕ} {t : ℕ} (F : Filling k₀ k S) (ht : t ∈ k.pmm.freeSet) :
    k.mem t = k₀.mem t := by
  refine F.outside t (fun hc => F.takes.draws.taken_notMem_free hc ht) ?_
  rintro rfl
  exact F.spaces.trees.used _ (root_mem_forest (mem_singleton_self _)) ht

/-- a write where a page is mapped -/
theorem Filling.write_ok {k₀ k : Kern} {S : Finset ℕ} {va : UserAddr} {e : U64} (F : Filling k₀ k S)
    (hcr3 : frame k₀.cr3 = k₀.pml4) (hw : paging.walk k.mem 3 k₀.pml4 (idx va.1) = some (0, e)) (ring3 : Bool)
    (b : BitVec 8) : k.write ring3 va.1 b = .ok (k.putByte (frame e) (va.1.toNat % pageSize) b) := by
  have hcr3' : frame k.cr3 = k.pml4 := by rw [F.regs.1, F.regs.2.1, hcr3]
  rw [← F.regs.1] at hw
  have hwr : has e writeBit = true := F.writable (0, e) (mem_leaves.2 ⟨_, va.lower, hw⟩)
  rw [write, if_neg (not_not.2 va.canonical), F.spaces.store_leaf F.active hcr3' hw, if_pos hwr]
  rfl

end Uix.Kern
