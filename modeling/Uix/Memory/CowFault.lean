/-
`vmm_page_fault` changes representation only: which page stands behind an address and what its entry allows, never what
is read there.

The tables may hold leaves of every level and entries of any flags. What is asked of them is that the tables of the user
halves are trees of their own, that no page in use is free, and that no user address maps one of these tables: an
address that does shows the entry that the handler rewrites.

- `mmuWalk_hole_user`: one leaf changed, as the processor sees it.
- `sees_set`, `sees_agree`: what an address shows depends on its walk and its page.
- `cow_fault_keeps`: the result, the leaf, the counts and all that is visible, for every address and error code.
- `cow_fault_shows_entry`: an address that maps a page table shows the change.
-/
import Uix.Memory.PageFault
import Uix.Memory.NoExec

namespace Uix

open Machine Radix Radix.Format Bytes List Function
open Pmm (pageIdx pageAddr)

/-! ## What an address shows -/

/-- page `f` is one of the `512 ^ l` pages that a leaf of level `l` maps -/
def MapsPage (p : ℕ × U64) (f : ℕ) : Prop := f / 512 ^ p.1 = frame p.2 / 512 ^ p.1

/-- the byte at `va` in the space with root `r`, and whether ring 3 may read it; `none` if nothing is mapped there -/
def sees (m : PhysMem) (r : ℕ) (va : U64) : Option (Bool × BitVec 8) :=
  (mmuWalk m 3 r (idx va)).map fun t => (t.user, byteAt m (t.physAddr va))

theorem mapsPage_zero {e : U64} {f : ℕ} : MapsPage (0, e) f ↔ f = frame e := by
  simp only [MapsPage, pow_zero, Nat.div_one]

/-- a leaf leads to one of its pages -/
theorem physAddr_mapsPage (t : Leaf) (va : U64) : MapsPage (t.level, t.entry) (t.physAddr va / pageSize) := by
  have hP : 2 ^ (12 + 9 * t.level) = pageSize * 512 ^ t.level := by
    rw [pow_add, pow_mul]
    rfl
  have hpos : 0 < pageSize * 512 ^ t.level := by rw [← hP]; positivity
  have hdiv : frame t.entry * pageSize / (pageSize * 512 ^ t.level) = frame t.entry / 512 ^ t.level := by
    rw [Nat.mul_comm]
    exact Nat.mul_div_mul_left _ _ (by decide)
  simp only [MapsPage, Leaf.physAddr, hP]
  rw [Nat.div_div_eq_div_mul, Nat.mul_comm (_ / _), Nat.mul_add_div hpos, Nat.div_eq_of_lt (Nat.mod_lt _ hpos),
    Nat.add_zero, hdiv]

/-! ## One leaf changed, as the processor sees it -/

section Hole

variable {m m' : PhysMem} {x y : ℕ → Fin 512} {is : List (Fin 512)} {l f g : ℕ}

/-- a walk to the change finds the new leaf, and the entries on the way let ring 3 through as before -/
theorem mmuWalk_hole_user (H : Hole paging m m' x is l f 0 g) (hy : ∀ j ≤ l, y j = x j)
    (hp : has (m g (x 0)) vmmPresent = true) (hp' : has (m' g (x 0)) vmmPresent = true)
    (hu : has (m' g (x 0)) vmmUser = has (m g (x 0)) vmmUser) :
    (mmuWalk m' l f y).map (·.user) = (mmuWalk m l f y).map (·.user) := by
  have hpath := H.path
  generalize hk : 0 = k at hpath H
  induction hpath generalizing is with
  | here l f =>
    subst hk
    simp only [mmuWalk, hy 0 le_rfl, if_pos hp, if_pos hp', Option.map_some, Leaf.ofEntry, hu]
  | @down l f k g hl hpath ih =>
    obtain ⟨he, Hd⟩ := H.down rfl hl hpath
    have hbelow := ih (fun j hj => hy j (Nat.le_succ_of_le hj)) hp hp' hu hk Hd
    have hthrough : ∀ (o : Option Leaf) (e : U64),
        (o.map (Leaf.through e)).map (·.user) = (o.map (·.user)).map (· && has e vmmUser) := by
      intro o e
      cases o <;> rfl
    rw [mmuWalk_link (by rwa [hy _ le_rfl, he]), mmuWalk_link (by rwa [hy _ le_rfl]), hy _ le_rfl, he, hthrough,
      hthrough]
    exact congrArg _ hbelow

end Hole

/-- what an address shows through a 4 KiB leaf -/
theorem sees_leaf {m : PhysMem} {r : ℕ} {va e : U64} (hw : paging.walk m 3 r (idx va) = some (0, e)) :
    sees m r va = ((mmuWalk m 3 r (idx va)).map (·.user)).map (·, getByte (m (frame e)) (va.toNat % pageSize)) := by
  obtain ⟨t, ht, hl, he⟩ := exists_mmuWalk hw
  obtain ⟨h1, h2⟩ := physAddr_page hl va
  simp only [sees, ht, Option.map_some, byteAt, h1, h2, he]

/-- what an address shows depends on its walk and its page -/
theorem sees_congr {m m' : PhysMem} {r : ℕ} {va : U64} (hw : mmuWalk m' 3 r (idx va) = mmuWalk m 3 r (idx va))
    (hpage : ∀ p, paging.walk m 3 r (idx va) = some p → ∀ f, MapsPage p f → m' f = m f) :
    sees m' r va = sees m r va := by
  unfold sees
  rw [hw]
  cases ht : mmuWalk m 3 r (idx va) with
  | none => rfl
  | some t =>
    have hwalk : paging.walk m 3 r (idx va) = some (t.level, t.entry) := by
      rw [← mmuWalk_walk, ht]
      rfl
    simp only [Option.map_some, byteAt, hpage _ hwalk _ (physAddr_mapsPage t va)]

namespace Kern

/-! ## The tables and pages in use -/

/-- no page that a user address maps is free -/
def PagesUsed (k : Kern) (roots : List ℕ) : Prop :=
  ∀ r ∈ roots, ∀ p ∈ paging.leaves k.mem 3 r lowerHalf, ∀ f, MapsPage p f → f ∉ k.pmm.freeSet

/-- no user address maps a table of a user half -/
def PagesApart (k : Kern) (roots : List ℕ) : Prop :=
  ∀ r ∈ roots, ∀ p ∈ paging.leaves k.mem 3 r lowerHalf, ∀ f, MapsPage p f → f ∉ paging.forest k.mem 3 roots lowerHalf

section Shown

variable {k k' : Kern} {roots : List ℕ}

/-- a page that no user address maps may change -/
theorem sees_agree {r : ℕ} (hA : Agree paging k.mem k'.mem 3 r lowerHalf)
    (hpage : ∀ p ∈ paging.leaves k.mem 3 r lowerHalf, ∀ f, MapsPage p f → k'.mem f = k.mem f) (va : UserAddr) :
    sees k'.mem r va.1 = sees k.mem r va.1 := by
  refine sees_congr (mmuWalk_congr (hA.root _ va.lower) (hA.below _ va.lower)) fun p hp f hf => ?_
  exact hpage p (mem_leaves.2 ⟨idx va.1, va.lower, hp⟩) f hf

/-- **A leaf replaced by one for a page of the same contents shows at no address.** -/
theorem sees_set {r g : ℕ} {x : ℕ → Fin 512} {e e' : U64} (T : Trees k roots lowerHalf) (happ : PagesApart k roots)
    (hr : r ∈ roots) (hx : x 3 ∈ lowerHalf) (hpath : At paging k.mem x 3 r 0 g) (he : k.mem g (x 0) = e)
    (hp : has e vmmPresent = true) (hp' : has e' vmmPresent = true) (hu : has e' vmmUser = has e vmmUser)
    (hnew : frame e' ∉ paging.forest k.mem 3 roots lowerHalf) (hcopy : k.mem (frame e') = k.mem (frame e))
    {r' : ℕ} (hr' : r' ∈ roots) (va : UserAddr) :
    sees (k.set g (x 0) e').mem r' va.1 = sees k.mem r' va.1 := by
  subst he
  have hg : g ∈ paging.forest k.mem 3 roots lowerHalf := mem_forest.2 ⟨r, hr, hpath.mem_tables hx⟩
  have hrow : ∀ f, f ≠ g → (k.set g (x 0) e').mem f = k.mem f := by
    intro f hf
    funext j
    rw [set_mem, if_neg fun h => hf h.1]
  have hpage : ∀ p, paging.walk k.mem 3 r' (idx va.1) = some p → ∀ f, MapsPage p f →
      (k.set g (x 0) e').mem f = k.mem f := by
    intro p hw f hf
    apply hrow
    rintro rfl
    exact happ r' hr' p (mem_leaves.2 ⟨_, va.lower, hw⟩) f hf hg
  have H : Hole paging k.mem (k.set g (x 0) e').mem x lowerHalf 3 r 0 g :=
    ⟨hpath, hx, lowerHalf_nodup, tree_of_forest T.nodup hr, fun h _ j hj => by rw [set_mem, if_neg hj]⟩
  by_cases hhit : r' = r ∧ ∀ j ≤ 3, idx va.1 j = x j
  · obtain ⟨rfl, hy⟩ := hhit
    have hold : paging.walk k.mem 3 r' (idx va.1) = some (0, k.mem g (x 0)) := by
      rw [walk_index hy, hpath.walk, walk_zero hp]
    have hset : paging.walk (k.set g (x 0) e').mem 3 r' (idx va.1) = some (0, e') := by
      rw [walk_set (patched_set e' T lowerHalf_nodup hr hx hpath) hy, if_pos hp']
    have huser := mmuWalk_hole_user H hy hp (by rwa [set_mem_self]) (by rw [set_mem_self, hu])
    have hne : frame e' ≠ g := fun h => hnew (by rwa [h])
    rw [sees_leaf hold, sees_leaf hset, huser, hrow _ hne, hcopy]
  · refine sees_congr ?_ hpage
    by_cases hne : r' = r
    · subst hne
      have hoff : ∃ j ≤ 3, idx va.1 j ≠ x j := by
        by_contra hc
        push Not at hc
        exact hhit ⟨rfl, hc⟩
      obtain ⟨j, hj, hoff⟩ := hoff
      exact mmuWalk_of_trail (trail_off_hole H va.lower ⟨j, Nat.zero_le j, hj, hoff⟩)
    · have hA : Agree paging k.mem (k.set g (x 0) e').mem 3 r' lowerHalf := by
        refine Agree.of_tables fun h hh => hrow h ?_
        rintro rfl
        exact ne_of_forest T.nodup hr' hr hne hh (hpath.mem_tables hx) rfl
      exact mmuWalk_congr (hA.root _ va.lower) (hA.below _ va.lower)

end Shown

/-! ## The handler -/

/-- the error code of a write to a present page, at a user address whose 4 KiB leaf is a user page with the mark -/
def Repairable (k : Kern) (addr err : U64) : Prop :=
  err &&& 3 = 3 ∧ addr < 0x0000800000000000#64 ∧
    ∃ e, paging.walk k.mem 3 k.pml4 (idx addr) = some (0, e) ∧ has e vmmUser = true ∧ has e cowMark = true

/-- the leaf `e` of `addr` became `e'` and everything still reads as before. A page that was shared is now one that no
other entry maps, and the old one lost one reference. -/
structure CowRepaired (k k' : Kern) (roots : List ℕ) (addr e e' : U64) : Prop where
  leaf : paging.walk k'.mem 3 k.pml4 (idx addr) = some (0, e')
  flags : has e' vmmPresent = true ∧ has e' vmmUser = true ∧ has e' writeBit = true ∧ has e' cowMark = false
  noexec : has e' vmmNoexec = has e vmmNoexec
  shows : ∀ r ∈ roots, ∀ va : UserAddr, sees k'.mem r va.1 = sees k.mem r va.1
  own : 1 < k.pmm.pmmGetref (e &&& pteMask) → ∀ r ∈ roots, ∀ y : ℕ → Fin 512, y 3 ∈ lowerHalf → ∀ p,
    paging.walk k'.mem 3 r y = some p → MapsPage p (frame e') → r = k.pml4 ∧ ∀ j ≤ 3, y j = idx addr j
  counts : 1 < k.pmm.pmmGetref (e &&& pteMask) → ∀ pa, k'.pmm.pmmGetref pa =
    if pageIdx pa = frame e then k.pmm.pmmGetref pa - 1 else k.pmm.pmmGetref pa

theorem cowLeaf_iff {k : Kern} {addr e : U64} : (∃ g, CowLeaf k addr g e) ↔
    paging.walk k.mem 3 k.pml4 (idx addr) = some (0, e) ∧ has e vmmUser = true ∧ has e cowMark = true := by
  constructor
  · rintro ⟨g, L⟩
    exact ⟨L.walk, L.user, L.mark⟩
  · rintro ⟨hw, hu, hc⟩
    obtain ⟨g, hat, he, hp⟩ := exists_at_of_walk hw
    exact ⟨g, hat, he, hp, hc, hu⟩

section Handled

variable {k k' : Kern} {roots : List ℕ} {va : UserAddr} {g t : ℕ} {e : U64}

theorem copiedEntry_marks {t : ℕ} (ht : t < 2 ^ 40) (e : U64) :
    has (copiedEntry t e) cowMark = false ∧ has (copiedEntry t e) vmmNoexec = has e vmmNoexec := by
  rw [copiedEntry, pageAddr_and_mask ht]
  simp only [has_or, has_and, has_pageAddr ht (show pteMask &&& cowMark = 0 by decide),
    has_pageAddr ht (show pteMask &&& vmmNoexec = 0 by decide), show has tableFlags cowMark = false by decide,
    show has tableFlags vmmNoexec = false by decide, show vmmNoexec &&& cowMark = 0 by decide,
    show vmmNoexec &&& vmmNoexec = vmmNoexec by decide, has_zero, Bool.or_self, Bool.false_or, and_self]

theorem unmarkedEntry_marks (e : U64) :
    has (unmarkedEntry e) cowMark = false ∧ has (unmarkedEntry e) vmmNoexec = has e vmmNoexec := by
  simp only [unmarkedEntry, has_or, has_and, show ~~~ cowMark &&& cowMark = 0 by decide,
    show ~~~ cowMark &&& vmmNoexec = vmmNoexec by decide, show has writeBit cowMark = false by decide,
    show has writeBit vmmNoexec = false by decide, has_zero, Bool.or_false, and_self]

theorem CowCopied.getref (C : CowCopied k k' va.1 g e t) (hk : k.pmm.Ok) (pa : PAddr) :
    k'.pmm.pmmGetref pa = if pageIdx pa = frame e then k.pmm.pmmGetref pa - 1 else k.pmm.pmmGetref pa := by
  have hold := Pmm.getref_gt hk C.shared
  have hlt : frame e < k.pmm.totalPages := hk.total ▸ hold.2.1
  have htot : k'.pmm.totalPages = k.pmm.totalPages := by rw [C.draws.ok.total, C.draws.len, hk.total]
  simp only [Pmm.pmmGetref, C.refs, hold.1, htot]
  by_cases hpa : pageIdx pa = frame e
  · rw [if_pos hpa, hpa, if_neg (Nat.not_le.2 hlt), if_neg (Nat.not_le.2 hlt), update_self]
  · rw [if_neg hpa, update_of_ne hpa]

/-- the copy is a page that only this leaf maps -/
theorem CowCopied.repaired (C : CowCopied k k' va.1 g e t) (T : Trees k roots lowerHalf) (hr : k.pml4 ∈ roots)
    (hused : PagesUsed k roots) (happ : PagesApart k roots) (L : CowLeaf k va.1 g e) :
    CowRepaired k k' roots va.1 e (copiedEntry t e) := by
  have hA := fun r (hr : r ∈ roots) => T.copying C hr
  have ht40 := Pmm.lt_of_free C.fresh T.phys
  have hfr := frame_copiedEntry ht40 e
  obtain ⟨hp, hw, hu⟩ := copiedEntry_flags t e
  have hmarks := copiedEntry_marks ht40 e
  have hrow : ∀ f, f ≠ t → ((k.setPmm k'.pmm).copyPage t (frame e)).mem f = k.mem f :=
    fun f hf => update_of_ne hf _ _
  have hforest : paging.forest ((k.setPmm k'.pmm).copyPage t (frame e)).mem 3 roots lowerHalf =
      paging.forest k.mem 3 roots lowerHalf := flatMap_congr fun r hr => (hA r hr).tables
  refine ⟨T.copied_walk hr L C, ⟨hp, hu, hw, hmarks.1⟩, hmarks.2, ?_, ?_, fun _ => C.getref T.pmm⟩
  · intro r hr' va'
    have hcopy : ((k.setPmm k'.pmm).copyPage t (frame e)).mem t = k.mem (frame e) := update_self ..
    have hne : frame e ≠ t := by
      intro h
      have hleaf : ((0, e) : ℕ × U64) ∈ paging.leaves k.mem 3 k.pml4 lowerHalf := mem_leaves.2 ⟨_, va.lower, L.walk⟩
      exact hused _ hr _ hleaf t (mapsPage_zero.2 h.symm) C.fresh
    have happ1 : PagesApart ((k.setPmm k'.pmm).copyPage t (frame e)) roots := by
      intro r hr p hp
      rw [(hA r hr).leaves] at hp
      rw [hforest]
      exact happ r hr p hp
    have hentry : ((k.setPmm k'.pmm).copyPage t (frame e)).mem g (idx va.1 0) = e := by
      rw [hrow g, L.entry]
      rintro rfl
      exact T.used g (mem_forest.2 ⟨_, hr, L.path.mem_tables va.lower⟩) C.fresh
    have hset : sees (((k.setPmm k'.pmm).copyPage t (frame e)).set g (idx va.1 0) (copiedEntry t e)).mem r va'.1 =
        sees ((k.setPmm k'.pmm).copyPage t (frame e)).mem r va'.1 := by
      refine sees_set (T.agree hA C.draws) happ1 hr va.lower (L.path.agree va.lower (hA _ hr)) hentry L.present hp
        (hu.trans L.user.symm) ?_ ?_ hr' va'
      · rw [hfr, hforest]
        exact fun h => T.used t h C.fresh
      · rw [hfr, hcopy, hrow _ hne]
    rw [C.state, hset]
    refine sees_agree (hA r hr') (fun p hleaf f hf => hrow f ?_) va'
    rintro rfl
    exact hused r hr' p hleaf f hf C.fresh
  · intro _ r hr' y hy p hwalk hmaps
    rw [hfr] at hmaps
    by_contra hother
    have hmiss : r ≠ k.pml4 ∨ ∃ j ≤ 3, y j ≠ idx va.1 j := by
      by_contra hc
      push Not at hc
      exact hother hc
    rw [(T.copied_patch hr L C).miss r hr' y hy hmiss, (hA r hr').walk hy] at hwalk
    exact hused r hr' p (mem_leaves.2 ⟨y, hy, hwalk⟩) t hmaps C.fresh

/-- a page that is not shared stays where it is -/
theorem CowUnmarked.repaired (C : CowUnmarked k k' va.1 g e) (T : Trees k roots lowerHalf) (hr : k.pml4 ∈ roots)
    (happ : PagesApart k roots) (L : CowLeaf k va.1 g e) : CowRepaired k k' roots va.1 e (unmarkedEntry e) := by
  obtain ⟨hp, hw, hu⟩ := unmarkedEntry_flags L.present L.user
  have hmarks := unmarkedEntry_marks e
  have hsole : ¬ 1 < k.pmm.pmmGetref (e &&& pteMask) := Nat.not_lt.2 C.sole
  refine ⟨T.unmarked_walk hr L C, ⟨hp, hu, hw, hmarks.1⟩, hmarks.2, ?_, fun h => absurd h hsole,
    fun h => absurd h hsole⟩
  intro r hr' va'
  have hleaf : ((0, e) : ℕ × U64) ∈ paging.leaves k.mem 3 k.pml4 lowerHalf := mem_leaves.2 ⟨_, va.lower, L.walk⟩
  rw [C.state]
  refine sees_set T happ hr va.lower L.path L.entry L.present hp (hu.trans L.user.symm) ?_ ?_ hr' va'
  · rw [frame_unmarkedEntry]
    exact happ _ hr _ hleaf _ (mapsPage_zero.2 rfl)
  · rw [frame_unmarkedEntry]

end Handled

theorem vmmPageFault_refused {k : Kern} {addr err : U64} (h : ¬ (err &&& 3 = 3 ∧ addr < 0x0000800000000000#64)) :
    k.vmmPageFault addr err = .ok (-1, k) := by
  unfold vmmPageFault
  rw [if_pos h]
  rfl

/-- **A copy-on-write fault changes representation only.** With a page to spare `vmm_page_fault` returns, 0 exactly for
a write to a marked user page. Then the leaf is writable and unmarked and every address of every space reads as before.
If it returns -1 nothing has changed. -/
theorem cow_fault_keeps {k : Kern} {roots : List ℕ} (T : Trees k roots lowerHalf) (hr : k.pml4 ∈ roots)
    (hused : PagesUsed k roots) (happ : PagesApart k roots) (hfree : k.pmm.freeSet.Nonempty) (addr err : U64) :
    ∃ res k', k.vmmPageFault addr err = .ok (res, k') ∧ (res = 0 ↔ Repairable k addr err) ∧
      (res ≠ 0 → res = -1 ∧ k' = k) ∧
      (res = 0 → ∀ e, paging.walk k.mem 3 k.pml4 (idx addr) = some (0, e) →
      ∃ e', CowRepaired k k' roots addr e e') := by
  by_cases hcode : err &&& 3 = 3 ∧ addr < 0x0000800000000000#64
  · obtain ⟨herr, haddr⟩ := hcode
    obtain ⟨va, rfl⟩ : ∃ va : UserAddr, va.1 = addr := ⟨⟨addr, haddr⟩, rfl⟩
    obtain ⟨⟨res, k'⟩, hrun, hres⟩ := (vmmPageFault_spec T.pmm va herr).exists_ok fun st hst =>
      hfree.ne_empty hst.2.1
    refine ⟨res, k', hrun, ?_⟩
    simp only at hres
    rcases hres with ⟨hfail, hnone⟩ | ⟨rfl, g, e, L, hdone⟩
    · obtain ⟨rfl, rfl⟩ := Prod.mk.inj hfail
      refine ⟨iff_of_false (by decide) ?_, fun _ => ⟨rfl, rfl⟩, fun h => absurd h (by decide)⟩
      rintro ⟨-, -, e, he⟩
      obtain ⟨g, L⟩ := cowLeaf_iff.2 he
      exact hnone g e L
    · refine ⟨iff_of_true rfl ⟨herr, haddr, e, cowLeaf_iff.1 ⟨g, L⟩⟩, fun h => absurd rfl h, fun _ e₁ he₁ => ?_⟩
      obtain rfl : e = e₁ := congrArg Prod.snd (Option.some.inj (L.walk.symm.trans he₁))
      rcases hdone with ⟨t, C⟩ | C
      · exact ⟨_, C.repaired T hr hused happ L⟩
      · exact ⟨_, C.repaired T hr happ L⟩
  · refine ⟨-1, k, vmmPageFault_refused hcode, iff_of_false (by decide) ?_, fun _ => ⟨rfl, rfl⟩,
      fun h => absurd h (by decide)⟩
    exact fun h => hcode ⟨h.1, h.2.1⟩

theorem onePage_free (e : U64) : (onePage e).pmm.freeSet = Finset.Ico 6 64 := Pmm.freeSet_fresh _ _ (by decide)

/-- a marked page at 0x400000, and the table that holds its entry mapped at 0x401000 -/
def selfMapped : Kern := (onePage 0x5205#64).set 4 (idx 0x401000#64 0) 0x4005#64

/-- the entry that maps the table, written in the tree of one page -/
theorem selfMapped_patched :
    Patched paging (onePage 0x5205#64).mem selfMapped.mem 3 [1] lowerHalf (idx 0x401000#64) 1 4 := by
  have hat : At paging (onePage 0x5205#64).mem (idx 0x401000#64) 3 1 0 4 := by
    refine (onePage_at 0x5205#64).congr fun j h0 h3 => ?_
    interval_cases j <;> decide
  exact patched_set _ (onePage_lower _) lowerHalf_nodup (mem_singleton_self 1) (mem_lowerHalf.2 (by decide)) hat

/-- **An address that maps a page table shows the change.** All pages in use are marked so and no table is shared. The
fault at 0x400000 is repaired, and the byte at 0x401000, the first of the entry, is another one afterwards. -/
theorem cow_fault_shows_entry : Trees selfMapped [1] lowerHalf ∧ selfMapped.pml4 ∈ [1] ∧ PagesUsed selfMapped [1] ∧
    selfMapped.pmm.freeSet.Nonempty ∧ ∃ k', selfMapped.vmmPageFault 0x400000#64 7 = .ok (0, k') ∧
      sees selfMapped.mem 1 0x401000#64 = some (true, 0x05#8) ∧ sees k'.mem 1 0x401000#64 = some (true, 0x07#8) := by
  have P := selfMapped_patched
  have hfree : selfMapped.pmm.freeSet = Finset.Ico 6 64 := onePage_free 0x5205#64
  have hrun : (selfMapped.vmmPageFault 0x400000#64 7).map (fun r => (r.1, sees r.2.mem 1 0x401000#64)) =
      .ok (0, some (true, 0x07#8)) := by decide +kernel
  refine ⟨(onePage_lower _).set P, List.mem_singleton_self 1, ?_, ?_, ?_⟩
  · intro r hr p hp f hf
    rw [List.mem_singleton.1 hr] at hp
    have hframe : p.1 = 0 ∧ frame p.2 < 6 := by
      rcases leaf_written P hp with hp | rfl
      · rw [onePage_leaves (by decide), List.mem_singleton] at hp
        rw [hp]
        decide
      · decide
    obtain ⟨l, e⟩ := p
    obtain ⟨rfl, hlt⟩ := hframe
    rw [mapsPage_zero] at hf
    rw [hfree, Finset.mem_Ico]
    simp only at hlt
    omega
  · rw [hfree]
    decide
  · cases hk : selfMapped.vmmPageFault 0x400000#64 7 with
    | error st => rw [hk] at hrun; exact absurd hrun (by simp [Except.map])
    | ok r =>
      obtain ⟨res, k'⟩ := r
      rw [hk] at hrun
      obtain ⟨rfl, hsees⟩ := Prod.mk.inj (Except.ok.inj hrun)
      exact ⟨k', rfl, by decide +kernel, hsees⟩

/-- a marked page in a space by itself -/
theorem cow_fault_keeps_page : ∃ k', (onePage 0x5205#64).vmmPageFault 0x400000#64 7 = .ok (0, k') ∧
    ∃ e', CowRepaired (onePage 0x5205#64) k' [1] 0x400000#64 0x5205#64 e' := by
  have hp : has 0x5205#64 vmmPresent = true := by decide
  have hpage : ∀ r ∈ [1], ∀ p ∈ paging.leaves (onePage 0x5205#64).mem 3 r lowerHalf, ∀ f, MapsPage p f → f = 5 := by
    intro r hr p hleaf f hf
    rw [List.mem_singleton.1 hr, onePage_leaves hp, List.mem_singleton] at hleaf
    rw [hleaf, mapsPage_zero] at hf
    rw [hf]
    decide
  have hused : PagesUsed (onePage 0x5205#64) [1] := by
    intro r hr p hleaf f hf
    rw [hpage r hr p hleaf f hf, onePage_free]
    decide
  have happ : PagesApart (onePage 0x5205#64) [1] := by
    intro r hr p hleaf f hf
    rw [hpage r hr p hleaf f hf, forest, List.flatMap_singleton,
      show (onePage 0x5205#64).mem = single 0x5205#64 from rfl, single_tables zero_mem_lowerHalf lowerHalf_nodup]
    decide
  obtain ⟨res, k', hrun, hzero, -, hdone⟩ :=
    cow_fault_keeps (onePage_lower 0x5205#64) (List.mem_singleton_self 1) hused happ
    (by rw [onePage_free]; decide) 0x400000#64 7
  have hw := onePage_walk hp
  obtain rfl : res = 0 := hzero.2 ⟨by decide, by decide, _, hw, by decide, by decide⟩
  exact ⟨k', hrun, hdone rfl _ hw⟩

end Kern

end Uix
