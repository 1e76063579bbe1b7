/-
The kernel half of all address spaces. A new PML4 gets the entries 256 .. 511 of the active one, by value; the heap
grows below entry 511, which the boot tables already have. So no entry of the kernel half of a PML4 changes after boot,
and a page mapped below entry 511 in one space is mapped in all of them.

- `Halves`: the user halves are trees, the tables below entry 511 are another one apart from them, and the entries of
  the kernel half are those of the kernel space.
- `Halves.created`, `Halves.forked`, `Halves.mapped`, `Halves.heap`: one lemma for each operation.
- `kernel_half_agrees`: every run from boot.
-/
import Uix.Memory.VmmClone
import Uix.Memory.Spaces

namespace Uix

open Machine Radix Radix.Format List Kern
open Pmm (pageIdx pageAddr Takes Draws)

namespace Kern

/-- `HEAP_VA_BASE` -/
def heapVaBase : U64 := 0xffffffff40000000#64

/-- the flags of a heap page -/
def heapFlags : U64 := vmmPresent ||| vmmWrite.setWidth 64 ||| vmmNoexec

/-- a page of the heap, in the loop of `grow` -/
def growPage (k : Kern) (brk : U64) : Except Stop Kern := do
  let (p, k) ← k.pmmAlloc
  if p = 0 then .error (.panic .heapOom) else k.vmmMap brk p heapFlags

/-- `grow` from `heap_brk` on, with the new `heap_brk` -/
def grow : ℕ → U64 → Kern → Except Stop (U64 × Kern)
  | 0, brk, k => pure (brk, k)
  | npages + 1, brk, k => do
    let k ← k.growPage brk
    grow npages (brk + 4096) k

/-! ## The invariant -/

/-- the tables below entry 511 -/
def slotTables (m : PhysMem) (r : ℕ) : List ℕ := paging.tables m 3 r [511]

/-- the space `kroot` of the kernel, and the user spaces `roots` -/
structure Halves (k : Kern) (kroot : ℕ) (roots : List ℕ) : Prop where
  user : Trees k roots lowerHalf
  plain : ∀ r ∈ roots, ∀ p ∈ paging.leaves k.mem 3 r lowerHalf, p.1 = 0
  kernel : Trees k [kroot] [511]
  slot : has (k.mem kroot 511) vmmPresent = true
  upper : ∀ r ∈ roots, ∀ i ∈ upperHalf, k.mem r i = k.mem kroot i
  apart : ∀ g ∈ slotTables k.mem kroot, g ∉ paging.forest k.mem 3 roots lowerHalf

section Halves

variable {k k' : Kern} {kroot r d : ℕ} {roots : List ℕ} {S : Finset ℕ}

theorem slot_mem_upperHalf : (511 : Fin 512) ∈ upperHalf := mem_upperHalf.2 (by decide)

theorem forest_slot (m : PhysMem) (r : ℕ) : paging.forest m 3 [r] [511] = slotTables m r := flatMap_singleton _ _

/-- **The same entries lead to the same pages.** -/
theorem Halves.walk (H : Halves k kroot roots) (hr : r ∈ roots) {x : ℕ → Fin 512} (hx : x 3 ∈ upperHalf) :
    mmuWalk k.mem 3 r x = mmuWalk k.mem 3 kroot x := mmuWalk_congr (H.upper r hr _ hx) fun _ _ => rfl

theorem Halves.entry (H : Halves k kroot roots) (hr : r ∈ kroot :: roots) {i : Fin 512} (hi : i ∈ upperHalf) :
    k.mem r i = k.mem kroot i := by
  rcases mem_cons.1 hr with rfl | hr
  · rfl
  · exact H.upper r hr i hi

theorem Halves.kroot_notMem (H : Halves k kroot roots) : kroot ∉ paging.forest k.mem 3 roots lowerHalf :=
  H.apart kroot mem_cons_self

/-- tables below entry 511 other than the PML4 itself -/
theorem Halves.below (H : Halves k kroot roots) (hr : r ∈ kroot :: roots) :
    paging.tablesAt k.mem 3 r 511 = paging.tablesAt k.mem 3 kroot 511 :=
  gather_congr (H.entry hr slot_mem_upperHalf) fun _ _ => rfl

theorem mem_slotTables {m : PhysMem} {g : ℕ} : g ∈ slotTables m r ↔ g = r ∨ g ∈ paging.tablesAt m 3 r 511 := by
  rw [slotTables, Format.tables, flatMap_singleton, mem_cons]

/-- a second PML4 with the same entry 511 -/
theorem Trees.slot {r' : ℕ} (T : Trees k [r] [511]) (he : k.mem r' 511 = k.mem r 511) (hin : r' < k.pmm.bitmapLen)
    (hused : r' ∉ k.pmm.freeSet) (hr : r' ∉ paging.tablesAt k.mem 3 r 511) : Trees k [r'] [511] := by
  have htab : slotTables k.mem r' = r' :: paging.tablesAt k.mem 3 r 511 := by
    rw [slotTables, Format.tables, flatMap_singleton]
    exact congrArg (r' :: ·) (gather_congr he fun _ _ => rfl)
  have hmem : ∀ g ∈ paging.tablesAt k.mem 3 r 511, g ∈ paging.forest k.mem 3 [r] [511] := fun g hg => by
    rw [forest_slot]
    exact mem_slotTables.2 (.inr hg)
  have hnodup := T.nodup
  rw [forest_slot, slotTables, Format.tables, flatMap_singleton] at hnodup
  refine ⟨T.pmm, T.phys, ?_, ?_, ?_⟩
  · rw [forest_slot, htab]
    exact nodup_cons.2 ⟨hr, (nodup_cons.1 hnodup).2⟩
  · rw [forest_slot, htab]
    exact forall_mem_cons.2 ⟨hin, fun g hg => T.inside g (hmem g hg)⟩
  · rw [forest_slot, htab]
    exact forall_mem_cons.2 ⟨hused, fun g hg => T.used g (hmem g hg)⟩

/-- a space has entry 511 of the kernel space, and so the tables below it -/
theorem Halves.slotTree (H : Halves k kroot roots) (hr : r ∈ kroot :: roots) : Trees k [r] [511] := by
  rcases mem_cons.1 hr with rfl | hr'
  · exact H.kernel
  have hf : _ ∈ paging.forest k.mem 3 _ lowerHalf := root_mem_forest hr'
  refine H.kernel.slot (H.entry hr slot_mem_upperHalf) (H.user.inside r hf) (H.user.used r hf) fun hc => ?_
  exact H.apart r (mem_slotTables.2 (.inr hc)) hf

/-! ## User tables change, the tables below entry 511 do not -/

/-- the kernel's part of the invariant after a step that leaves its tables alone -/
theorem Halves.keep {roots' : List ℕ} (H : Halves k kroot roots) (hD : Draws k.pmm S k'.pmm)
    (hsame : ∀ g ∈ slotTables k.mem kroot, k'.mem g = k.mem g) (hT : Trees k' roots' lowerHalf)
    (hplain : ∀ r ∈ roots', ∀ p ∈ paging.leaves k'.mem 3 r lowerHalf, p.1 = 0)
    (hupper : ∀ r ∈ roots', ∀ i ∈ upperHalf, k'.mem r i = k.mem kroot i)
    (hforest : ∀ g ∈ paging.forest k'.mem 3 roots' lowerHalf,
      g ∈ paging.forest k.mem 3 roots lowerHalf ∨ g ∈ k.pmm.freeSet) : Halves k' kroot roots' := by
  have hA : Agree paging k.mem k'.mem 3 kroot [511] := .of_tables hsame
  have hk : ∀ i, k'.mem kroot i = k.mem kroot i := congrFun (hsame kroot mem_cons_self)
  constructor
  case user => exact hT
  case plain => exact hplain
  case kernel =>
    refine H.kernel.agree (fun r hr => ?_) hD
    rw [mem_singleton.1 hr]
    exact hA
  case slot =>
    rw [hk]
    exact H.slot
  case upper =>
    intro r hr i hi
    rw [hk]
    exact hupper r hr i hi
  case apart =>
    intro g hg hc
    rw [slotTables, hA.tables] at hg
    rcases hforest g hc with hc | hc
    · exact H.apart g hg hc
    · exact H.kernel.used g (forest_slot k.mem kroot ▸ hg) hc

/-- **`vmm_create_space`** -/
theorem Halves.created (H : Halves k kroot roots) (hact : k.pml4 ∈ kroot :: roots) (C : SpaceCreated k k' d) :
    Halves k' kroot (d :: roots) := by
  have hne : ∀ g, g ∉ k.pmm.freeSet → k'.mem g = k.mem g := fun g hg => C.other g fun hc => hg (hc ▸ C.fresh)
  have hslot : ∀ g ∈ slotTables k.mem kroot, g ∉ k.pmm.freeSet :=
    fun g hg => H.kernel.used g (forest_slot k.mem kroot ▸ hg)
  have hroot : ∀ r ∈ roots, r ∉ k.pmm.freeSet := fun r hr => H.user.used r (root_mem_forest hr)
  have hpml4 : k.pml4 ≠ d := fun hc => by
    refine absurd C.fresh ?_
    rw [← hc]
    rcases mem_cons.1 hact with h | h
    · rw [h]
      exact hslot kroot mem_cons_self
    · exact hroot _ h
  obtain ⟨ht, hl, -⟩ := empty_space C.lower
  refine H.keep C.takes.draws (fun g hg => hne g (hslot g hg)) (H.user.created C) ?_ ?_ ?_
  · refine forall_mem_cons.2 ⟨fun p hp => ?_, fun r hr p hp => ?_⟩
    · rw [hl] at hp
      exact absurd hp not_mem_nil
    · rw [(H.user.created_agree C hr).leaves] at hp
      exact H.plain r hr p hp
  · refine forall_mem_cons.2 ⟨fun i hi => ?_, fun r hr i hi => ?_⟩
    · rw [C.upper i hi, if_neg hpml4]
      exact H.entry hact hi
    · rw [hne r (hroot r hr)]
      exact H.upper r hr i hi
  · intro g hg
    rw [Format.forest, flatMap_cons, mem_append, ht, mem_singleton] at hg
    rcases hg with rfl | hg
    · exact .inr C.fresh
    · left
      obtain ⟨r, hr, hg⟩ := mem_flatMap.1 hg
      rw [(H.user.created_agree C hr).tables] at hg
      exact mem_forest.2 ⟨r, hr, hg⟩

/-- the active user space can be forked -/
theorem Halves.spacePre (H : Halves k kroot roots) (hr : k.pml4 ∈ roots) : SpacePre k where
  pmm := H.user.pmm
  phys := H.user.phys
  tree := tree_of_forest H.user.nodup hr
  used g hg := H.user.used g (mem_forest.2 ⟨_, hr, hg⟩)
  plain := H.plain _ hr

/-- **`vmm_fork_user_space`** -/
theorem Halves.forked (H : Halves k kroot roots) (hr : k.pml4 ∈ roots) (F : SpaceForked k k' d S) :
    Halves k' kroot (d :: roots) := by
  have hforest := H.user.forked_forest hr F
  have hne : ∀ g ∈ slotTables k.mem kroot, k'.mem g = k.mem g := fun g hg =>
    F.outside g (F.draws.notMem (H.kernel.used g (forest_slot k.mem kroot ▸ hg))) fun hc =>
      H.apart g hg (mem_forest.2 ⟨_, hr, hc⟩)
  refine H.keep F.draws hne (H.user.forked hr F) ?_ ?_ ?_
  · have hmarked : ∀ r, r = k.pml4 ∨ r = d → ∀ p ∈ paging.leaves k'.mem 3 r lowerHalf, p.1 = 0 := by
      intro r hrd p hp
      rw [F.leaves_eq hrd, mem_map] at hp
      obtain ⟨q, hq, rfl⟩ := hp
      exact H.plain _ hr q hq
    refine forall_mem_cons.2 ⟨hmarked d (.inr rfl), fun r hr' p hp => ?_⟩
    by_cases hrk : r = k.pml4
    · exact hmarked r (.inl hrk) p hp
    · rw [(H.user.forked_other hr F hr' hrk).leaves] at hp
      exact H.plain r hr' p hp
  · refine forall_mem_cons.2 ⟨fun i hi => ?_, fun r hr' i hi => ?_⟩
    · rw [F.upper i (mem_upperHalf_iff.1 hi)]
      exact H.upper _ hr i hi
    · rw [← H.upper r hr' i hi]
      by_cases hrk : r = k.pml4
      · rw [hrk]
        exact F.root i (mem_upperHalf_iff.1 hi)
      · refine congrFun (F.outside r (F.draws.notMem (H.user.used r (root_mem_forest hr'))) fun hc => ?_) i
        exact ne_of_forest H.user.nodup hr' hr hrk mem_cons_self hc rfl
  · intro g hg
    rw [Format.forest, flatMap_cons, mem_append] at hg
    rcases hg with hg | hg
    · exact .inr (F.draws.sub (F.fresh g hg))
    · exact .inl (hforest ▸ hg)

/-- **`vmm_map` in the user half** of the active space -/
theorem Halves.mapped {va : UserAddr} {pa : PAddr} {flags : U64} (H : Halves k kroot roots) (hr : k.pml4 ∈ roots)
    (hmap : k.vmmMap va.1 pa flags = .ok k') : Halves k' kroot roots ∧ k'.pml4 = k.pml4 ∧ k'.cr3 = k.cr3 ∧
      k'.kernelCr3 = k.kernelCr3 := by
  obtain ⟨-, k1, S, g, -, G, hat, -, rfl⟩ :=
    (vmmMap_spec pa flags H.user lowerHalf_nodup hr va.lower).of_eq hmap
  change Halves (k1.set g (idx va.1 0) _) kroot roots ∧ _
  have P := patched_set ((pa &&& pteMask) ||| flags) G.trees lowerHalf_nodup hr va.lower hat
  have hg : g ∈ paging.forest k1.mem 3 roots lowerHalf := mem_forest.2 ⟨_, hr, hat.mem_tables va.lower⟩
  refine ⟨H.keep (S := S) G.takes.draws ?_ (G.trees.set P) ?_ ?_ ?_, G.regs⟩
  · intro h hh
    have hS : h ∉ S := G.takes.draws.notMem (H.kernel.used h (forest_slot k.mem kroot ▸ hh))
    refine (set_mem_of_ne _ _ _ ?_).trans (G.outside h hS (H.apart h hh))
    rintro rfl
    exact (G.sub h hg).elim (H.apart h hh) hS
  · intro r hr' p hp
    by_cases hrk : r = k.pml4
    · subst hrk
      rcases leaf_written P hp with hp | rfl
      · rw [G.leaves _ hr] at hp
        exact H.plain _ hr p hp
      · rfl
    · rw [P.others r hr' hrk, G.leaves r hr'] at hp
      exact H.plain r hr' p hp
  · intro r hr' i hi
    rw [P.root r hr' i (mem_upperHalf_iff.1 hi), G.rest r hr' i (mem_upperHalf_iff.1 hi)]
    exact H.upper r hr' i hi
  · intro h hh
    rw [P.forest] at hh
    exact (G.sub h hh).imp_right fun hS => G.takes.sub hS

/-! ## The heap grows -/

/-- memory after `vmm_map` below entry 511: no PML4 has changed, and nothing but the tables below and free pages -/
structure SlotGrown (k k' : Kern) (r : ℕ) (S : Finset ℕ) : Prop where
  takes : Takes k.pmm S k'.pmm
  regs : SameRegs k k'
  tree : Trees k' [r] [511]
  sub : ∀ g ∈ paging.tablesAt k'.mem 3 r 511, g ∈ paging.tablesAt k.mem 3 r 511 ∨ g ∈ S
  root : k'.mem r = k.mem r
  outside : ∀ f, f ∉ S → f ∉ paging.tablesAt k.mem 3 r 511 → k'.mem f = k.mem f

theorem slotGrown {va pa flags : U64} (T : Trees k [k.pml4] [511]) (hslot : has (k.mem k.pml4 511) vmmPresent = true)
    (hva : idx va 3 = 511) :
    Meets (k.vmmMap va pa flags)
      (fun _ => k.pmm.freeSet.card < 3 ∨ paging.walk k.mem 3 k.pml4 (idx va) ≠ none)
      fun k' => ∃ S, SlotGrown k k' k.pml4 S ∧
        (has flags vmmPresent = true → paging.walk k'.mem 3 k.pml4 (idx va) ≠ none) := by
  have hx : idx va 3 ∈ ([511] : List (Fin 512)) := mem_singleton.2 hva
  have hr := mem_singleton_self k.pml4
  refine (vmmMap_spec pa flags T (nodup_singleton _) hr hx).mono ?_ ?_
  · rintro st (⟨-, hst⟩ | ⟨-, hst⟩)
    · exact .inl hst
    · exact .inr hst
  rintro k' ⟨-, k1, S, g, -, G, hat, -, rfl⟩
  rw [show ptIdx va = idx va 0 from rfl]
  have P := patched_set ((pa &&& pteMask) ||| flags) G.trees (nodup_singleton _) hr hx hat
  have hT := G.trees.set P
  have hgt : g ∈ paging.tablesAt k1.mem 3 k.pml4 511 := hva ▸ hat.mem_tablesAt (Nat.zero_le 2)
  have hg : g ∈ paging.forest k1.mem 3 [k.pml4] [511] := mem_forest.2 ⟨_, hr, hat.mem_tables hx⟩
  have hgr : k.pml4 ≠ g :=
    (root_ne_of_tables (tree_of_forest G.trees.nodup hr) (mem_singleton_self _) hgt).symm
  have hroot : (k1.set g (idx va 0) ((pa &&& pteMask) ||| flags)).mem k.pml4 = k.mem k.pml4 := by
    rw [set_mem_of_ne _ _ _ hgr]
    funext i
    by_cases hi : i = 511
    · exact G.top _ hr i (hi ▸ hslot)
    · exact G.rest _ hr i fun hc => hi (mem_singleton.1 hc)
  refine ⟨S, ⟨G.takes, G.regs, hT, ?_, hroot, ?_⟩, fun hp => ?_⟩
  · intro h hh
    have hne := root_ne_of_tables (tree_of_forest hT.nodup hr) (mem_singleton_self _) hh
    have hf : h ∈ paging.forest k1.mem 3 [k.pml4] [511] := by
      rw [← P.forest, forest_slot]
      exact mem_slotTables.2 (.inr hh)
    have := G.sub h hf
    rw [forest_slot, mem_slotTables] at this
    rcases this with (rfl | hh) | hh
    · exact absurd rfl hne
    · exact .inl hh
    · exact .inr hh
  · intro f hfS hf
    by_cases hfr : f = k.pml4
    · rw [hfr]
      exact hroot
    · have hff : f ∉ paging.forest k.mem 3 [k.pml4] [511] := by
        rw [forest_slot, mem_slotTables]
        exact fun hc => hc.elim hfr hf
      rw [set_mem_of_ne, G.outside f hfS hff]
      rintro rfl
      exact (G.sub f hg).elim hff hfS
  · rw [show paging.walk _ 3 k.pml4 (idx va) = _ from walk_set P fun _ _ => rfl,
      if_pos (by rw [has_or, hp, Bool.or_true])]
    simp

section Heap

variable (H : Halves k kroot roots) (hact : r ∈ kroot :: roots) (G : SlotGrown k k' r S)
include H hact G

theorem Halves.heap_root : k'.mem kroot = k.mem kroot := by
  refine G.outside kroot (G.takes.draws.notMem (H.kernel.used kroot (root_mem_forest (mem_singleton_self _)))) ?_
  rw [H.below hact]
  exact fun hc => root_ne_of_tables (tree_of_forest H.kernel.nodup (mem_singleton_self _)) (mem_singleton_self _) hc rfl

theorem Halves.heap_slot : k'.mem kroot 511 = k'.mem r 511 := by
  rw [H.heap_root hact G, G.root]
  exact (H.entry hact slot_mem_upperHalf).symm

/-- tables below entry 511 are old ones or were free -/
theorem Halves.heap_sub : ∀ g ∈ paging.tablesAt k'.mem 3 kroot 511, g ∈ paging.tablesAt k.mem 3 kroot 511 ∨ g ∈ S := by
  intro g hg
  rw [← H.below hact]
  refine G.sub g ?_
  rwa [show paging.tablesAt k'.mem 3 r 511 = paging.tablesAt k'.mem 3 kroot 511 from
    gather_congr (H.heap_slot hact G).symm fun _ _ => rfl]

/-- the user halves do not change -/
theorem Halves.heap_user : ∀ f ∈ paging.forest k.mem 3 roots lowerHalf, k'.mem f = k.mem f := by
  intro f hf
  refine G.outside f (G.takes.draws.notMem (H.user.used f hf)) fun hc => ?_
  rw [H.below hact] at hc
  exact H.apart f (mem_slotTables.2 (.inr hc)) hf

/-- **`vmm_map` below entry 511**, in any of the spaces -/
theorem Halves.heap : Halves k' kroot roots := by
  have hkS : ∀ g ∈ slotTables k.mem kroot, g ∉ S := fun g hg =>
    G.takes.draws.notMem (H.kernel.used g (forest_slot k.mem kroot ▸ hg))
  have huser := H.heap_user hact G
  have hk := H.heap_root hact G
  have hslot := H.heap_slot hact G
  have hA : ∀ r ∈ roots, Agree paging k.mem k'.mem 3 r lowerHalf := fun r hr =>
    .of_tables fun g hg => huser g (mem_forest.2 ⟨r, hr, hg⟩)
  have hforest : paging.forest k'.mem 3 roots lowerHalf = paging.forest k.mem 3 roots lowerHalf :=
    flatMap_congr fun r hr => (hA r hr).tables
  constructor
  case user => exact H.user.agree hA G.takes.draws
  case plain =>
    intro r hr p hp
    rw [(hA r hr).leaves] at hp
    exact H.plain r hr p hp
  case kernel =>
    have hf : kroot ∈ paging.forest k.mem 3 [kroot] [511] := root_mem_forest (mem_singleton_self _)
    refine G.tree.slot hslot ?_ (G.takes.draws.notMem_free (H.kernel.used kroot hf)) fun hc => ?_
    · rw [G.takes.len]
      exact H.kernel.inside kroot hf
    · rcases G.sub kroot hc with hc | hc
      · rw [H.below hact] at hc
        exact root_ne_of_tables (tree_of_forest H.kernel.nodup (mem_singleton_self _)) (mem_singleton_self _) hc rfl
      · exact hkS kroot mem_cons_self hc
  case slot =>
    rw [hk]
    exact H.slot
  case upper =>
    intro r hr i hi
    rw [hk, huser r (root_mem_forest hr)]
    exact H.upper r hr i hi
  case apart =>
    intro g hg hc
    rw [hforest] at hc
    rcases mem_slotTables.1 hg with rfl | hg
    · exact H.kroot_notMem hc
    · rcases H.heap_sub hact G g hg with hg | hg
      · exact H.apart g (mem_slotTables.2 (.inr hg)) hc
      · exact H.user.used g hc (G.takes.sub hg)

end Heap

/-- registers and counters do not matter -/
theorem Halves.regs (H : Halves k kroot roots) (hD : Draws k.pmm S k'.pmm) (hmem : k'.mem = k.mem) :
    Halves k' kroot roots := by
  have hA : ∀ r ∈ roots, Agree paging k.mem k'.mem 3 r lowerHalf := fun _ _ => .of_tables fun _ _ => by rw [hmem]
  refine H.keep hD (fun _ _ => by rw [hmem]) (H.user.agree hA hD) ?_ ?_ ?_
  · rw [hmem]
    exact H.plain
  · rw [hmem]
    exact H.upper
  · rw [hmem]
    exact fun g hg => .inl hg

/-- **A page more for the heap.** -/
theorem growPage_spec {brk : U64} (H : Halves k kroot roots) (hact : k.pml4 ∈ kroot :: roots) (hva : idx brk 3 = 511) :
    Meets (k.growPage brk) (fun _ => k.pmm.freeSet.card < 4 ∨ paging.walk k.mem 3 k.pml4 (idx brk) ≠ none)
      fun k' => Halves k' kroot roots ∧ SameRegs k k' ∧
        paging.walk k'.mem 3 k.pml4 (idx brk) ≠ none := by
  unfold growPage
  refine meets_alloc H.user.pmm (fun h0 => ?_) fun t p ht h0 hT => ?_
  · refine meets_error (.inl ?_)
    rw [h0]
    decide
  · simp only [if_neg h0]
    have H0 : Halves (k.setPmm p) kroot roots := H.regs hT.draws rfl
    have hslot : has (k.mem k.pml4 511) vmmPresent = true := by
      rw [H.entry hact slot_mem_upperHalf]
      exact H.slot
    refine (slotGrown (H0.slotTree hact) hslot hva).mono ?_ ?_
    · rintro st (hst | hst)
      · left
        rw [setPmm_pmm, hT.free, Finset.card_sdiff_of_subset hT.sub, Finset.card_singleton] at hst
        omega
      · exact .inr hst
    · rintro k' ⟨S, G, hw⟩
      exact ⟨H0.heap hact G, G.regs, hw (by decide)⟩

/-- heap addresses are below entry 511 -/
theorem idx_heap {va : U64} (h : heapVaBase ≤ va) : idx va 3 = 511 := by
  have h1 : 0xffffffff40000000 ≤ va.toNat := BitVec.le_def.1 h
  have h2 := va.isLt
  apply Fin.ext
  rw [idx, slot_val]
  norm_num
  omega

/-- **`grow`** -/
theorem Halves.grown {npages : ℕ} {brk brk' : U64} (H : Halves k kroot roots) (hact : k.pml4 ∈ kroot :: roots)
    (hlo : heapVaBase ≤ brk) (hhi : brk.toNat + npages * pageSize ≤ 2 ^ 64)
    (hrun : k.grow npages brk = .ok (brk', k')) : Halves k' kroot roots ∧ SameRegs k k' := by
  induction npages generalizing k brk with
  | zero =>
    rw [grow, pure_ok, Prod.mk.injEq] at hrun
    rw [← hrun.2]
    exact ⟨H, rfl, rfl, rfl⟩
  | succ n ih =>
    obtain ⟨k1, hpage, hrun⟩ := bind_ok.1 hrun
    obtain ⟨H1, hregs, -⟩ := (growPage_spec H hact (idx_heap hlo)).of_eq hpage
    cases n with
    | zero =>
      rw [grow, pure_ok, Prod.mk.injEq] at hrun
      rw [← hrun.2]
      exact ⟨H1, hregs⟩
    | succ n =>
      -- the next page is a heap page too: the cursor does not wrap
      simp only [pageSize] at hhi ih
      have hnext : (brk + 4096).toNat = brk.toNat + 4096 := by
        rw [BitVec.toNat_add, show (4096 : U64).toNat = 4096 from rfl, Nat.mod_eq_of_lt (by omega)]
      have hlo' : heapVaBase ≤ brk + 4096 := by
        rw [BitVec.le_def, hnext]
        have := BitVec.le_def.1 hlo
        omega
      obtain ⟨H2, h1, h2, h3⟩ := ih H1 (hregs.1 ▸ hact) hlo' (by rw [hnext]; omega) hrun
      exact ⟨H2, h1.trans hregs.1, h2.trans hregs.2.1, h3.trans hregs.2.2⟩

end Halves

end Kern

/-! ## Runs -/

/-- the kernel with the `cr3` of every space created so far -/
structure SpaceSet where
  kern : Kern
  spaces : List PAddr

namespace SpaceSet

inductive Op where
  | create
  | fork
  | switch (cr3 : PAddr)
  | mapUser (va : UserAddr) (pa : PAddr) (flags : U64)
  | grow (npages : ℕ) (brk : U64)

/-- one operation of the kernel. Fork and user mappings are for a user space that is active, a switch goes to a space
that was created or to the kernel's, and the heap lies above `HEAP_VA_BASE`; anything else is no step. -/
def step (s : SpaceSet) : Op → Except Stop SpaceSet
  | .create => do
    let (pa, k) ← s.kern.vmmCreateSpace
    pure ⟨k, pa :: s.spaces⟩
  | .fork =>
    if s.kern.cr3 ∈ s.spaces then do
      let (pa, k) ← s.kern.vmmForkUserSpace
      pure ⟨k, pa :: s.spaces⟩
    else pure s
  | .switch cr3 => pure (if cr3 ∈ s.kern.kernelCr3 :: s.spaces then ⟨s.kern.vmmSwitch cr3, s.spaces⟩ else s)
  | .mapUser va pa flags =>
    if s.kern.cr3 ∈ s.spaces then do
      let k ← s.kern.vmmMap va.1 pa flags
      pure ⟨k, s.spaces⟩
    else pure s
  | .grow npages brk =>
    if Kern.heapVaBase ≤ brk ∧ brk.toNat + npages * pageSize ≤ 2 ^ 64 then do
      let (_, k) ← s.kern.grow npages brk
      pure ⟨k, s.spaces⟩
    else pure s

def roots (s : SpaceSet) : List ℕ := s.spaces.map frame

structure Agreed (s : SpaceSet) : Prop where
  addrs : ∀ cr3 ∈ s.kern.kernelCr3 :: s.spaces, pageIdx cr3 = frame cr3
  halves : Kern.Halves s.kern (frame s.kern.kernelCr3) s.roots
  active : s.kern.cr3 ∈ s.kern.kernelCr3 :: s.spaces
  pml4 : s.kern.pml4 = frame s.kern.cr3

section Step

variable {s t : SpaceSet}

theorem Agreed.mem (h : Agreed s) : s.kern.pml4 ∈ frame s.kern.kernelCr3 :: s.roots := by
  rw [h.pml4]
  exact mem_map.2 ⟨_, h.active, rfl⟩

theorem Agreed.mem_roots (h : Agreed s) (hc : s.kern.cr3 ∈ s.spaces) : s.kern.pml4 ∈ s.roots := by
  rw [h.pml4]
  exact mem_map.2 ⟨_, hc, rfl⟩

/-- one space more -/
theorem Agreed.cons {k : Kern} {d : ℕ} (h : Agreed s) (hd : d ∈ s.kern.pmm.freeSet)
    (hregs : Kern.SameRegs s.kern k)
    (H : Halves k (frame s.kern.kernelCr3) (d :: s.roots)) : Agreed ⟨k, pageAddr d :: s.spaces⟩ := by
  have hd40 := Pmm.lt_of_free hd h.halves.user.phys
  obtain ⟨h1, h2, h3⟩ := hregs
  refine ⟨?_, ?_, ?_, ?_⟩
  · rw [h3]
    refine forall_mem_cons.2 ⟨h.addrs _ mem_cons_self, forall_mem_cons.2 ⟨?_, fun c hc => ?_⟩⟩
    · rw [frame_pageAddr hd40, Pmm.pageIdx_pageAddr (by omega)]
    · exact h.addrs c (mem_cons_of_mem _ hc)
  · rw [h3, roots, map_cons, frame_pageAddr hd40]
    exact H
  · rw [h2, h3]
    rcases mem_cons.1 h.active with hc | hc
    · rw [hc]
      exact mem_cons_self
    · exact mem_cons_of_mem _ (mem_cons_of_mem _ hc)
  · exact h1.trans (h.pml4.trans (by rw [h2]))

/-- the same spaces in another memory -/
theorem Agreed.keep {k : Kern} (h : Agreed s)
    (hregs : Kern.SameRegs s.kern k)
    (H : Halves k (frame s.kern.kernelCr3) s.roots) : Agreed ⟨k, s.spaces⟩ := by
  obtain ⟨h1, h2, h3⟩ := hregs
  refine ⟨?_, ?_, ?_, ?_⟩
  · rw [h3]
    exact h.addrs
  · rw [h3]
    exact H
  · rw [h2, h3]
    exact h.active
  · exact h1.trans (h.pml4.trans (by rw [h2]))

/-- **Every operation keeps the kernel halves equal.** -/
theorem Agreed.step {o : Op} (h : Agreed s) (hstep : s.step o = .ok t) :
    Agreed t ∧ t.kern.kernelCr3 = s.kern.kernelCr3 := by
  cases o with
  | create =>
    obtain ⟨⟨pa, k⟩, hrun, ht⟩ := bind_ok.1 hstep
    rw [pure_ok] at ht
    subst ht
    obtain ⟨d, hpa, C⟩ := (vmmCreateSpace_spec h.halves.user.pmm).of_eq hrun
    simp only at hpa C
    subst hpa
    exact ⟨h.cons C.fresh C.regs (h.halves.created h.mem C), C.regs.2.2⟩
  | fork =>
    simp only [SpaceSet.step] at hstep
    split_ifs at hstep with hc
    · obtain ⟨⟨pa, k⟩, hrun, ht⟩ := bind_ok.1 hstep
      rw [pure_ok] at ht
      subst ht
      have hr := h.mem_roots hc
      obtain ⟨d, S, hpa, hd, F⟩ := (vmmFork_spec (h.halves.spacePre hr)).of_eq hrun
      simp only at hpa F
      subst hpa
      exact ⟨h.cons hd F.regs (h.halves.forked hr F), F.regs.2.2⟩
    · rw [pure_ok] at hstep
      subst hstep
      exact ⟨h, rfl⟩
  | switch cr3 =>
    rw [SpaceSet.step, pure_ok] at hstep
    subst hstep
    split_ifs with hc
    · refine ⟨⟨h.addrs, h.halves.regs (.refl h.halves.user.pmm) rfl, hc, h.addrs cr3 hc⟩, rfl⟩
    · exact ⟨h, rfl⟩
  | mapUser va pa flags =>
    simp only [SpaceSet.step] at hstep
    split_ifs at hstep with hc
    · obtain ⟨k, hrun, ht⟩ := bind_ok.1 hstep
      rw [pure_ok] at ht
      subst ht
      obtain ⟨H, hregs⟩ := h.halves.mapped (h.mem_roots hc) hrun
      exact ⟨h.keep hregs H, hregs.2.2⟩
    · rw [pure_ok] at hstep
      subst hstep
      exact ⟨h, rfl⟩
  | grow npages brk =>
    simp only [SpaceSet.step] at hstep
    split_ifs at hstep with hc
    · obtain ⟨⟨brk', k⟩, hrun, ht⟩ := bind_ok.1 hstep
      rw [pure_ok] at ht
      subst ht
      obtain ⟨H, hregs⟩ := h.halves.grown h.mem hc.1 hc.2 hrun
      exact ⟨h.keep hregs H, hregs.2.2⟩
    · rw [pure_ok] at hstep
      subst hstep
      exact ⟨h, rfl⟩

/-- `vmm_init` leaves the kernel on its own copy of the boot tables -/
theorem boot_agreed {k₀ k : Kern} (hk : k₀.pmm.Ok) (hphys : k₀.pmm.bitmapLen ≤ 2 ^ 40) (hvalid : ValidTop k₀)
    (hused : ∀ g ∈ paging.tables k₀.mem 3 (frame k₀.cr3) (finRange 512), g ∉ k₀.pmm.freeSet)
    (hboot : k₀.vmmInit = .ok k) (hslot : has (k.mem k.pml4 511) vmmPresent = true) : Agreed ⟨k, []⟩ := by
  obtain ⟨⟨pa, k1⟩, hclone, hk1⟩ := bind_ok.1 hboot
  obtain ⟨d, S, hpa, hd, C⟩ := (cloneTop_spec hk hphys hvalid hused).of_eq hclone
  simp only at hpa C
  rw [pure_ok] at hk1
  subst hk1 hpa
  have hidx : pageIdx (pageAddr d) = d := Pmm.pageIdx_pageAddr (by omega)
  have hfr : frame (pageAddr d) = d := frame_pageAddr hd
  have hsub : ∀ g ∈ slotTables k1.mem d, g ∈ S := by
    intro g hg
    refine C.fresh g ?_
    rcases mem_slotTables.1 hg with rfl | hg
    · exact mem_cons_self
    · exact mem_cons_of_mem _ (mem_flatMap.2 ⟨511, mem_finRange _, hg⟩)
  have hnone : ∀ {P : ℕ → Prop}, ∀ r ∈ ([] : List ℕ), P r := fun r hr => absurd hr not_mem_nil
  have hphys' : k1.pmm.bitmapLen ≤ 2 ^ 40 := C.takes.len ▸ hphys
  refine ⟨?_, ?_, mem_cons_self, hidx.trans hfr.symm⟩
  · exact forall_mem_singleton.2 (hidx.trans hfr.symm)
  · simp only [hfr]
    simp only [hidx] at hslot
    refine ⟨⟨C.takes.ok, hphys', nodup_nil, hnone, hnone⟩, hnone, ⟨C.takes.ok, hphys', ?_, ?_, ?_⟩, hslot, hnone, ?_⟩
    · rw [forest_slot, slotTables, Format.tables, flatMap_singleton]
      have hn := nodup_cons.1 C.nodup
      refine nodup_cons.2 ⟨fun hc => hn.1 (mem_flatMap.2 ⟨511, mem_finRange _, hc⟩), ?_⟩
      exact (nodup_flatMap.1 hn.2).1 511 (mem_finRange _)
    · rw [forest_slot]
      intro g hg
      show g < k1.pmm.bitmapLen
      rw [C.takes.len]
      exact (Pmm.mem_freeSet.1 (C.takes.sub (hsub g hg))).1
    · rw [forest_slot]
      exact fun g hg => C.takes.draws.taken_notMem_free (hsub g hg)
    · exact fun g _ hc => absurd hc not_mem_nil

end Step

/-- **All spaces agree on the kernel half.** From the boot clone of any valid hierarchy whose entry 511 is present,
after any operations in any order, the processor and `vmm_translate` take every address of the kernel half to the same
place in every space created and in the kernel space. -/
theorem kernel_half_agrees (k₀ k : Kern) (hk : k₀.pmm.Ok) (hphys : k₀.pmm.bitmapLen ≤ 2 ^ 40)
    (hvalid : Kern.ValidTop k₀)
    (hused : ∀ g ∈ paging.tables k₀.mem 3 (frame k₀.cr3) (List.finRange 512), g ∉ k₀.pmm.freeSet)
    (hboot : k₀.vmmInit = .ok k) (hslot : has (k.mem k.pml4 511) vmmPresent = true) (ops : List Op) (t : SpaceSet)
    (hrun : run step ⟨k, []⟩ ops = .ok t) : t.kern.kernelCr3 = k.kernelCr3 ∧ ∀ cr3 ∈ t.spaces, ∀ va : U64,
      0xffff800000000000#64 ≤ va →
        mmuWalk t.kern.mem 3 (frame cr3) (idx va) = mmuWalk t.kern.mem 3 (frame k.kernelCr3) (idx va) ∧
        (t.kern.vmmSwitch cr3).vmmTranslate va = (t.kern.vmmSwitch k.kernelCr3).vmmTranslate va := by
  have hinv := run_inv (fun s => Agreed s ∧ s.kern.kernelCr3 = k.kernelCr3) (fun s o u hs hstep => by
    obtain ⟨h, heq⟩ := hs.1.step hstep
    exact ⟨h, heq.trans hs.2⟩) ⟨boot_agreed hk hphys hvalid hused hboot hslot, rfl⟩ hrun
  obtain ⟨h, heq⟩ := hinv
  refine ⟨heq, fun cr3 hc va hva => ?_⟩
  have hx : idx va 3 ∈ upperHalf := by
    have h1 : 0xffff800000000000 ≤ va.toNat := BitVec.le_def.1 hva
    have h2 := va.isLt
    rw [Kern.mem_upperHalf, idx, slot_val]
    norm_num
    omega
  have hwalk := h.halves.walk (List.mem_map.2 ⟨cr3, hc, rfl⟩) hx
  rw [heq] at hwalk
  refine ⟨hwalk, ?_⟩
  rw [Kern.vmmTranslate_eq, Kern.vmmTranslate_eq]
  change (paging.walk t.kern.mem 3 (pageIdx cr3) (idx va)).map _ =
    (paging.walk t.kern.mem 3 (pageIdx k.kernelCr3) (idx va)).map _
  rw [h.addrs cr3 (List.mem_cons_of_mem _ hc), h.addrs k.kernelCr3 (heq ▸ List.mem_cons_self), ← mmuWalk_walk,
    ← mmuWalk_walk, hwalk]

/-! ### A heap page after a space -/

/-- boot tables in the pages 1 and 2: the last GiB of the address space is a large page -/
def bootMem : PhysMem := fun f i => if i = 511 then if f = 1 then 0x2003#64 else if f = 2 then 0x83#64 else 0 else 0

def bootKern : Kern := ⟨bootMem, Pmm.fresh 64 6 none, 1, pageAddr 1, pageAddr 1⟩

theorem bootMem_absent {f : ℕ} {i : Fin 512} (hi : i ≠ 511) : paging.present (bootMem f i) = false := by
  rw [bootMem, if_neg hi, paging_present, zero_has]

theorem bootMem_tables : paging.tables bootMem 3 1 (finRange 512) = [1, 2] := by
  have hone : ∀ l f, (finRange 512).flatMap (paging.tablesAt bootMem l f) = paging.tablesAt bootMem l f 511 :=
    fun l f => gather_single (mem_finRange _) (nodup_finRange 512) fun j hj => bootMem_absent hj
  have hlink : paging.link 2 (bootMem 1 511) = true := by decide
  have hnext : paging.next (bootMem 1 511) = 2 := by decide
  have hleaf : paging.tablesAt bootMem 2 2 511 = [] := by
    rw [Format.tablesAt, Format.gather, if_neg (by decide), ite_self]
  rw [Format.tables, hone, tablesAt_link hlink, hnext, Format.tables, hone, hleaf]

theorem bootKern_cr3 : frame bootKern.cr3 = 1 := frame_pageAddr (by decide)

theorem bootKern_free : bootKern.pmm.freeSet = Finset.Ico 6 64 := Pmm.freeSet_fresh _ _ (by decide)

theorem bootKern_ok : bootKern.pmm.Ok := Pmm.fresh_ok _ (by decide) (by decide) (by decide) (by decide)

theorem bootKern_valid : ValidTop bootKern := by
  intro i hp
  rw [bootKern_cr3] at hp ⊢
  by_cases hi : i = 511
  · subst hi
    decide
  · have habs : has (bootKern.mem 1 i) vmmPresent = false := bootMem_absent hi
    rw [habs] at hp
    exact absurd hp (by decide)

theorem bootKern_used : ∀ g ∈ paging.tables bootKern.mem 3 (frame bootKern.cr3) (finRange 512),
    g ∉ bootKern.pmm.freeSet := by
  rw [bootKern_cr3, bootKern_free, show bootKern.mem = bootMem from rfl, bootMem_tables]
  decide

/-- the copy has entry 511 and no heap yet -/
theorem bootKern_init : ∃ k, bootKern.vmmInit = .ok k ∧ has (k.mem k.pml4 511) vmmPresent = true ∧
    paging.walk k.mem 3 k.pml4 (idx heapVaBase) = none ∧ 56 ≤ k.pmm.freeSet.card := by
  have hspec := cloneTop_spec bootKern_ok (by decide) bootKern_valid bootKern_used
  rw [bootKern_cr3, show bootKern.mem = bootMem from rfl, bootMem_tables] at hspec
  obtain ⟨⟨pa, k1⟩, hrun, d, S, hpa, hd, C⟩ := hspec.exists_ok fun st hst => by
    have := hst.2
    rw [bootKern_free] at this
    exact absurd this (by decide)
  simp only at hpa C
  have hidx : pageIdx pa = d := hpa ▸ Pmm.pageIdx_pageAddr (by omega)
  refine ⟨_, bind_ok.2 ⟨_, hrun, rfl⟩, ?_, ?_, ?_⟩
  · have hw : ∀ t, mmuWalk k1.mem 3 d (fun _ => 511) = t → t ≠ none := by
      rintro t ht rfl
      have := C.walk fun _ => 511
      rw [ht] at this
      exact absurd this (by decide)
    simp only [hidx]
    cases hp : has (k1.mem d 511) vmmPresent with
    | true => rfl
    | false => exact absurd rfl (hw none (mmuWalk_absent hp))
  · simp only [hidx]
    have := C.walk (idx heapVaBase)
    rw [show mmuWalk bootKern.mem 3 1 (idx heapVaBase) = none by decide, Option.map_none,
      Option.map_eq_none_iff] at this
    rw [← mmuWalk_walk, this]
    rfl
  · show 56 ≤ k1.pmm.freeSet.card
    have hcard : S.card = 2 := by
      rw [C.card, show bootKern.mem = bootMem from rfl, bootMem_tables]
      rfl
    rw [C.takes.free, Finset.card_sdiff_of_subset C.takes.sub, hcard, bootKern_free]
    decide

/-- a space is created, then the heap gets its first page while the kernel space is active: the new space has it too -/
theorem heap_page_seen : ∃ k t cr3, bootKern.vmmInit = .ok k ∧
    run step ⟨k, []⟩ [.create, .grow 1 Kern.heapVaBase] = .ok t ∧ t.spaces = [cr3] ∧
    mmuWalk t.kern.mem 3 (frame cr3) (idx Kern.heapVaBase) ≠ none := by
  obtain ⟨k, hboot, hslot, hnone, hcard⟩ := bootKern_init
  have h0 := boot_agreed bootKern_ok (by decide) bootKern_valid bootKern_used hboot hslot
  -- the space
  obtain ⟨⟨pa, k1⟩, hcreate, d, hpa, C⟩ := (Kern.vmmCreateSpace_spec h0.halves.user.pmm).exists_ok fun st hst => by
    have h1 : k.pmm.freeSet = ∅ := hst.2
    rw [h1] at hcard
    exact absurd hcard (by decide)
  simp only at hpa C
  have hstep1 : step ⟨k, []⟩ .create = .ok ⟨k1, [pa]⟩ := by
    rw [step, hcreate]
    rfl
  obtain ⟨h1, -⟩ := h0.step hstep1
  have hpml4 : k1.pml4 = k.pml4 := C.regs.1
  -- the heap page
  have hbase : idx Kern.heapVaBase 3 = 511 := Kern.idx_heap (by decide)
  have hwalk : paging.walk k1.mem 3 k1.pml4 (idx Kern.heapVaBase) = none := by
    rw [hpml4, ← hnone]
    have hA : Agree paging k.mem k1.mem 3 k.pml4 [511] := .of_tables fun g hg => C.other g fun hc => by
      refine (h0.halves.slotTree h0.mem).used g ?_ (hc ▸ C.fresh)
      rw [Kern.forest_slot]
      exact hg
    exact hA.walk (List.mem_singleton.2 hbase)
  have hcard1 : k1.pmm.freeSet.card = k.pmm.freeSet.card - 1 := by
    rw [C.takes.free, Finset.card_sdiff_of_subset C.takes.sub, Finset.card_singleton]
  obtain ⟨k2, hgrow, H2, hregs, hseen⟩ :=
    (Kern.growPage_spec h1.halves h1.mem hbase).exists_ok fun st hst => by
      rcases hst with hst | hst
      · simp only at hst
        omega
      · exact hst hwalk
  have hstep2 : step ⟨k1, [pa]⟩ (.grow 1 Kern.heapVaBase) = .ok ⟨k2, [pa]⟩ := by
    simp only at hgrow
    rw [step, if_pos (by decide), Kern.grow, hgrow]
    rfl
  have hrun : run step ⟨k, []⟩ [.create, .grow 1 Kern.heapVaBase] = .ok ⟨k2, [pa]⟩ :=
    run_cons_ok.2 ⟨_, hstep1, run_cons_ok.2 ⟨_, hstep2, rfl⟩⟩
  refine ⟨k, _, pa, hboot, hrun, rfl, ?_⟩
  obtain ⟨-, hall⟩ :=
    kernel_half_agrees bootKern k bootKern_ok (by decide) bootKern_valid bootKern_used hboot hslot _ _ hrun
  rw [(hall pa List.mem_cons_self Kern.heapVaBase (by decide)).1]
  intro hc
  apply hseen
  have hact : k1.pml4 = frame k.kernelCr3 := by
    obtain ⟨⟨pa', k'⟩, hclone, hk⟩ := bind_ok.1 hboot
    rw [pure_ok] at hk
    rw [hpml4, ← hk]
    exact h0.addrs _ (hk ▸ List.mem_cons_self)
  show paging.walk k2.mem 3 k1.pml4 _ = none
  rw [hact, ← mmuWalk_walk, hc]
  rfl

end SpaceSet

end Uix
