/-
`vmm_fork_user_space`: a copy of the user half of an address space that shares its pages.

`Forked l src dst is k k' S` says what copying the entries `is` of table `src` (level `l`) to table `dst` did: pages `S`
were taken for the new tables and for the reference counts, both trees have the shape of the old one with every user
leaf turned into a copy-on-write leaf (`marked`), the new tables lie in `S`, and one reference was counted for each user
leaf.

- `Forked.append`: one entry more.
- `forkEntry_leaf`, `forkLink_spec`, `forkTable_spec`: one entry, and by recursion on the level a whole table.
- `vmmFork_spec`: the whole user half.
-/
import Uix.Memory.VmmSpec

namespace Uix

open Machine Radix Radix.Format List
open Pmm (pageIdx pageAddr Takes Draws)

/-! ## Leaves and links after a fork -/

/-- what fork makes of a leaf, in both spaces -/
def marked (e : U64) : U64 := if has e vmmUser then cow e else e

theorem present_marked (e : U64) : has (marked e) vmmPresent = has e vmmPresent := by
  unfold marked
  split_ifs
  · exact has_cow e (by decide) (by decide)
  · rfl

/-- entries with the same flags -/
def SameFlags (e e' : U64) : Prop := e' &&& 0xFFF#64 = e &&& 0xFFF#64

theorem SameFlags.has {e e' f : U64} (h : SameFlags e e') (hf : 0xFFF#64 &&& f = f) : has e' f = has e f := by
  rw [← hf, ← has_and, ← has_and, h]

theorem SameFlags.link {e e' : U64} {l : ℕ} (h : SameFlags e e') : paging.link l e' = paging.link l e := by
  simp only [Format.link, paging, h.has (f := vmmPresent) (by decide), h.has (f := pdePs) (by decide)]

theorem sameFlags_forked {t : ℕ} (ht : t < 2 ^ 40) (e : U64) : SameFlags e (pageAddr t ||| (e &&& 0xFFF#64)) := by
  have h0 : pageAddr t &&& 0xFFF#64 = 0 := by
    rw [← pageAddr_and_mask ht, BitVec.and_assoc]
    exact BitVec.and_zero
  rw [SameFlags, BitVec.and_or_distrib_right, h0, BitVec.and_assoc, BitVec.and_self]
  exact BitVec.zero_or

theorem frame_forked {t : ℕ} (ht : t < 2 ^ 40) (e : U64) : frame (pageAddr t ||| (e &&& 0xFFF#64)) = t := by
  rw [frame_or, frame_pageAddr ht]
  rw [BitVec.ushiftRight_and_distrib, BitVec.and_assoc]
  exact BitVec.and_zero

/-- a pointer built from the low bits of another one can be executed through -/
theorem exec_forked {t : ℕ} (ht : t < 2 ^ 40) (e : U64) : has (pageAddr t ||| (e &&& 0xFFF#64)) vmmNoexec = false := by
  rw [has_or, has_pageAddr ht (by decide), has_and, show (0xFFF#64 &&& vmmNoexec) = 0 by decide, has_zero,
    Bool.or_false]

/-- the frames that fork counts a reference for -/
def userFrames (len : ℕ) (L : List (ℕ × U64)) : List ℕ :=
  L.filterMap fun p => if has p.2 vmmUser = true ∧ frame p.2 < len then some (frame p.2) else none

theorem userFrames_append (len : ℕ) (L L' : List (ℕ × U64)) :
    userFrames len (L ++ L') = userFrames len L ++ userFrames len L' := filterMap_append

theorem userFrames_sublist (len : ℕ) (L : List (ℕ × U64)) : (userFrames len L).Sublist (L.map fun p => frame p.2) := by
  induction L with
  | nil => exact .slnil
  | cons p L ih =>
    rw [userFrames, filterMap_cons, map_cons]
    split
    · exact ih.cons _
    next a ha =>
      split_ifs at ha
      rw [← Option.some.inj ha]
      exact ih.cons_cons _

namespace Kern

/-! ## Before and after -/

/-- the entries `is` of table `src` can be copied to `dst`: a tree of used pages with 4 KiB leaves -/
structure ForkPre (l src dst : ℕ) (is : List (Fin 512)) (k : Kern) : Prop where
  pmm : k.pmm.Ok
  phys : k.pmm.bitmapLen ≤ 2 ^ 40
  nodup : is.Nodup
  tree : (paging.tables k.mem l src is).Nodup
  used : ∀ g ∈ paging.tables k.mem l src is, g ∉ k.pmm.freeSet
  dstUsed : dst ∉ k.pmm.freeSet
  dstOut : dst ∉ paging.tables k.mem l src is
  plain : ∀ p ∈ paging.leaves k.mem l src is, p.1 = 0

/-- the entries `is` of a table lead to tables of their own, all in the pages `S` and none behind an NX bit -/
structure Hung (l dst : ℕ) (is : List (Fin 512)) (m : PhysMem) (S : Finset ℕ) : Prop where
  nodup : (is.flatMap (paging.tablesAt m l dst)).Nodup
  fresh : ∀ i ∈ is, ∀ g ∈ paging.tablesAt m l dst i, g ∈ S
  exec : ∀ i ∈ is, ∀ e ∈ paging.linksAt m l dst i, has e vmmNoexec = false

/-- the same of the table and all below it -/
structure Planted (l d : ℕ) (is : List (Fin 512)) (m : PhysMem) (S : Finset ℕ) : Prop where
  nodup : (paging.tables m l d is).Nodup
  fresh : ∀ g ∈ paging.tables m l d is, g ∈ S
  exec : ∀ e ∈ paging.links m l d is, has e vmmNoexec = false

section Hung

variable {l d dst : ℕ} {is pre : List (Fin 512)} {i : Fin 512} {m m' : PhysMem} {S S' : Finset ℕ}

theorem Hung.of_nil (h : ∀ i ∈ is, paging.tablesAt m l dst i = []) : Hung l dst is m S where
  nodup := by
    rw [flatMap_eq_nil_iff.2 h]
    exact nodup_nil
  fresh i hi g hg := by
    rw [h i hi] at hg
    exact absurd hg not_mem_nil
  exec i hi e he := by
    have hnil := h i hi
    rw [tablesAt_eq_map, map_eq_nil_iff] at hnil
    rw [hnil] at he
    exact absurd he not_mem_nil

/-- one entry more, which leaves those before alone -/
theorem Hung.append (h : Hung l dst pre m S) (h' : Hung l dst [i] m' S') (hS : Disjoint S S')
    (hdst : ∀ j ∈ pre, m' dst j = m dst j) (hnew : ∀ j ∈ pre, ∀ g ∈ paging.tablesAt m l dst j, m' g = m g) :
    Hung l dst (pre ++ [i]) m' (S ∪ S') := by
  have htab : ∀ j ∈ pre, paging.tablesAt m' l dst j = paging.tablesAt m l dst j := fun j hj =>
    gather_congr (hdst j hj) (hnew j hj)
  constructor
  case nodup =>
    have hnew' := h'.nodup
    rw [flatMap_singleton] at hnew'
    rw [flatMap_append, flatMap_singleton, flatMap_congr htab]
    refine nodup_append.2 ⟨h.nodup, hnew', ?_⟩
    intro a ha b hb
    obtain ⟨j, hj, ha⟩ := mem_flatMap.1 ha
    rintro rfl
    exact Finset.disjoint_left.1 hS (h.fresh j hj a ha) (h'.fresh i (mem_singleton_self i) a hb)
  case fresh =>
    intro j hj g hg
    rw [Finset.mem_union]
    rcases mem_append.1 hj with hj | hj
    · exact .inl (h.fresh j hj g (htab j hj ▸ hg))
    · exact .inr (h'.fresh j hj g hg)
  case exec =>
    intro j hj e he
    rcases mem_append.1 hj with hj | hj
    · rw [Format.linksAt, gather_congr (hdst j hj) (hnew j hj)] at he
      exact h.exec j hj e he
    · exact h'.exec j hj e he

theorem Hung.planted (h : Hung l d is m S) (hd : d ∉ S) : Planted l d is m ({d} ∪ S) := by
  have hbelow : ∀ g ∈ is.flatMap (paging.tablesAt m l d), g ∈ S := by
    intro g hg
    obtain ⟨i, hi, hg⟩ := mem_flatMap.1 hg
    exact h.fresh i hi g hg
  refine ⟨nodup_cons.2 ⟨fun hc => hd (hbelow d hc), h.nodup⟩, fun g hg => ?_, fun e he => ?_⟩
  · rw [Finset.mem_union, Finset.mem_singleton]
    exact (mem_cons.1 hg).imp_right (hbelow g)
  · obtain ⟨i, hi, he⟩ := mem_flatMap.1 he
    exact h.exec i hi e he

/-- a table hung below an entry -/
theorem Planted.hung (h : Planted l d (finRange 512) m S) (hA : Agree paging m m' l d (finRange 512))
    (hl : paging.link l (m' dst i) = true) (hnext : paging.next (m' dst i) = d)
    (hx : has (m' dst i) vmmNoexec = false) : Hung (l + 1) dst [i] m' S := by
  have htab : paging.tablesAt m' (l + 1) dst i = paging.tables m l d (finRange 512) := by
    rw [tablesAt_link hl, hnext]
    exact hA.tables
  refine ⟨?_, fun j hj g hg => ?_, fun j hj e he => ?_⟩
  · rw [flatMap_singleton, htab]
    exact h.nodup
  · rw [mem_singleton.1 hj, htab] at hg
    exact h.fresh g hg
  · rw [mem_singleton.1 hj, linksAt_link hl, hnext, hA.links] at he
    rcases mem_cons.1 he with rfl | he
    · exact hx
    · exact h.exec e he

end Hung

structure Forked (l src dst : ℕ) (is : List (Fin 512)) (k k' : Kern) (S : Finset ℕ) : Prop
    extends Hung l dst is k'.mem S where
  draws : Draws k.pmm S k'.pmm
  regs : SameRegs k k'
  outside : ∀ f j, f ∉ S → (∀ i ∈ is, f ∉ paging.tablesAt k.mem l src i) → ¬ ((f = src ∨ f = dst) ∧ j ∈ is) →
    k'.mem f j = k.mem f j
  old : ∀ i ∈ is, Sim paging marked Eq k.mem k'.mem l src src i
  new : ∀ i ∈ is, Sim paging marked SameFlags k.mem k'.mem l src dst i
  counts : k'.pmm.counts =
    (userFrames k.pmm.bitmapLen (is.flatMap (paging.leavesAt k.mem l src))).foldl Pmm.bump k.pmm.counts
  /-- once the reference counts exist, pages are taken for tables only -/
  taken : k.pmm.refcounts ≠ none →
    k'.pmm.refcounts ≠ none ∧ S.card = (is.flatMap (paging.tablesAt k.mem l src)).length

/-- why copying may not return: there are too few pages, or there is no array of reference counts yet and no room for
it -/
def ForkStop (k : Kern) (n : ℕ) (e : Stop) : Prop :=
  (e = .panic .vmmOomForkTables ∨ e = .wild) ∧ (k.pmm.refcounts = none ∨ k.pmm.freeSet.card < n)

theorem Forked.refl {l src dst : ℕ} {k : Kern} (h : k.pmm.Ok) : Forked l src dst [] k k ∅ where
  draws := .refl h
  regs := ⟨rfl, rfl, rfl⟩
  outside _ _ _ _ _ := rfl
  old _ hi := absurd hi not_mem_nil
  new _ hi := absurd hi not_mem_nil
  toHung := .of_nil fun _ hi => absurd hi not_mem_nil
  counts := rfl
  taken h := ⟨h, rfl⟩

section Append

variable {l src dst : ℕ} {is pre post : List (Fin 512)} {i : Fin 512} {k₀ k k' : Kern} {S S' : Finset ℕ}

/-- the entry that comes next -/
theorem ForkPre.split (P : ForkPre l src dst is k₀) (his : is = pre ++ i :: post) :
    i ∈ is ∧ (∀ j ∈ pre, j ∈ is) ∧ i ∉ pre := by
  subst his
  refine ⟨by simp, fun j hj => mem_append_left _ hj, fun hc => ?_⟩
  exact (nodup_append.1 P.nodup).2.2 i hc i mem_cons_self rfl

section Next

variable (P : ForkPre l src dst is k₀) (F : Forked l src dst pre k₀ k S) (his : is = pre ++ i :: post)
include P F his

/-- entries that are not copied yet are as they were -/
theorem Forked.todo : k.mem src i = k₀.mem src i ∧ ∀ g ∈ paging.tablesAt k₀.mem l src i, k.mem g = k₀.mem g := by
  obtain ⟨hi, hpre, hni⟩ := P.split his
  have hin : ∀ g ∈ paging.tablesAt k₀.mem l src i, g ∈ paging.tables k₀.mem l src is := fun g hg =>
    mem_cons_of_mem _ (mem_flatMap.2 ⟨i, hi, hg⟩)
  constructor
  · apply F.outside
    · exact F.draws.notMem (P.used _ mem_cons_self)
    · intro j hj hc
      exact root_ne_of_tables P.tree (hpre j hj) hc rfl
    · exact fun hc => hni hc.2
  · intro g hg
    funext j
    apply F.outside
    · exact F.draws.notMem (P.used g (hin g hg))
    · intro i' hi' hc
      exact ne_of_tables P.tree (hpre i' hi') hi (fun h => hni (h ▸ hi')) hc hg rfl
    · rintro ⟨rfl | rfl, -⟩
      · exact root_ne_of_tables P.tree hi hg rfl
      · exact P.dstOut (hin g hg)

/-- so are the entries to be filled -/
theorem Forked.target : k.mem dst i = k₀.mem dst i := by
  obtain ⟨-, hpre, hni⟩ := P.split his
  apply F.outside
  · exact F.draws.notMem P.dstUsed
  · exact fun j hj hc => P.dstOut (mem_cons_of_mem _ (mem_flatMap.2 ⟨j, hpre j hj, hc⟩))
  · exact fun hc => hni hc.2

/-- the next entry can be copied -/
theorem Forked.next : ForkPre l src dst [i] k := by
  obtain ⟨hi, -, -⟩ := P.split his
  obtain ⟨he, hs⟩ := F.todo P his
  have hA : Agree paging k₀.mem k.mem l src [i] := by
    refine ⟨fun j hj => ?_, fun j hj => ?_⟩
    · rwa [mem_singleton.1 hj]
    · rwa [mem_singleton.1 hj]
  have hsub : ∀ g ∈ paging.tables k₀.mem l src [i], g ∈ paging.tables k₀.mem l src is := by
    intro g hg
    rcases mem_cons.1 hg with rfl | hg
    · exact mem_cons_self
    · rw [flatMap_singleton] at hg
      exact mem_cons_of_mem _ (mem_flatMap.2 ⟨i, hi, hg⟩)
  refine ⟨F.draws.ok, F.draws.len ▸ P.phys, nodup_singleton i, ?_, ?_, ?_, ?_, ?_⟩
  · rw [hA.tables, Format.tables, flatMap_singleton]
    refine nodup_cons.2 ⟨fun hc => root_ne_of_tables P.tree hi hc rfl, ?_⟩
    exact (nodup_flatMap.1 (nodup_cons.1 P.tree).2).1 i hi
  · rw [hA.tables]
    exact fun g hg => F.draws.notMem_free (P.used g (hsub g hg))
  · exact F.draws.notMem_free P.dstUsed
  · rw [hA.tables]
    exact fun hc => P.dstOut (hsub _ hc)
  · rw [hA.leaves]
    intro p hp
    rw [Format.leaves, flatMap_singleton] at hp
    exact P.plain p (mem_flatMap.2 ⟨i, hi, hp⟩)

/-- **One entry more.** -/
theorem Forked.append (G : Forked l src dst [i] k k' S') : Forked l src dst (pre ++ [i]) k₀ k' (S ∪ S') := by
  obtain ⟨hi, hpre, hni⟩ := P.split his
  obtain ⟨he, hs⟩ := F.todo P his
  have hA : paging.tablesAt k.mem l src i = paging.tablesAt k₀.mem l src i := gather_congr he hs
  have hL : paging.leavesAt k.mem l src i = paging.leavesAt k₀.mem l src i := gather_congr he hs
  have hin : ∀ j ∈ is, ∀ g ∈ paging.tablesAt k₀.mem l src j, g ∈ paging.tables k₀.mem l src is := fun j hj g hg =>
    mem_cons_of_mem _ (mem_flatMap.2 ⟨j, hj, hg⟩)
  -- what the last step leaves alone
  have hkeep : ∀ g j, g ∉ S' → g ∉ paging.tablesAt k₀.mem l src i → ¬ ((g = src ∨ g = dst) ∧ j = i) →
      k'.mem g j = k.mem g j := by
    intro g j h1 h2 h3
    apply G.outside g j h1
    · intro i' hi'
      rw [mem_singleton.1 hi', hA]
      exact h2
    · rwa [mem_singleton]
  have hused : ∀ g, g ∉ k₀.pmm.freeSet → g ∉ S' := fun g hg => G.draws.notMem (F.draws.notMem_free hg)
  have hsrc : ∀ j ∈ pre, k'.mem src j = k.mem src j := by
    intro j hj
    apply hkeep src j (hused _ (P.used _ mem_cons_self))
    · exact fun hc => root_ne_of_tables P.tree hi hc rfl
    · exact fun hc => hni (hc.2 ▸ hj)
  have hbelow : ∀ j ∈ pre, ∀ g ∈ paging.tablesAt k₀.mem l src j, k'.mem g = k.mem g := by
    intro j hj g hg
    funext j'
    have hne : j ≠ i := fun h => hni (h ▸ hj)
    apply hkeep g j' (hused _ (P.used g (hin j (hpre j hj) g hg)))
    · exact fun hc => ne_of_tables P.tree (hpre j hj) hi hne hg hc rfl
    · rintro ⟨rfl | rfl, -⟩
      · exact root_ne_of_tables P.tree (hpre j hj) hg rfl
      · exact P.dstOut (hin j (hpre j hj) _ hg)
  have hdst : ∀ j ∈ pre, k'.mem dst j = k.mem dst j := by
    intro j hj
    apply hkeep dst j (hused _ P.dstUsed)
    · exact fun hc => P.dstOut (hin i hi _ hc)
    · exact fun hc => hni (hc.2 ▸ hj)
  have hnew : ∀ j ∈ pre, ∀ g ∈ paging.tablesAt k.mem l dst j, k'.mem g = k.mem g := by
    intro j hj g hg
    have hgS := F.fresh j hj g hg
    have hfree := F.draws.sub hgS
    funext j'
    apply hkeep g j' (Finset.disjoint_left.1 (F.draws.disjoint G.draws) hgS)
    · exact fun hc => P.used g (hin i hi g hc) hfree
    · rintro ⟨rfl | rfl, -⟩
      · exact P.used _ mem_cons_self hfree
      · exact P.dstUsed hfree
  constructor
  case toHung => exact F.toHung.append G.toHung (F.draws.disjoint G.draws) hdst hnew
  case draws => exact F.draws.trans G.draws
  case regs =>
    exact F.regs.trans G.regs
  case outside =>
    intro f j hf ht hne
    rw [Finset.mem_union, not_or] at hf
    rw [hkeep f j hf.2 (ht i (by simp)) fun hc => hne ⟨hc.1, by simp [hc.2]⟩]
    apply F.outside f j hf.1
    · exact fun i' hi' => ht i' (mem_append_left _ hi')
    · exact fun hc => hne ⟨hc.1, mem_append_left _ hc.2⟩
  case old =>
    intro j hj
    rcases mem_append.1 hj with hj | hj
    · refine (F.old j hj).congr rfl (fun _ _ => rfl) (hsrc j hj) ?_
      rw [(F.old j hj).tablesAt_eq]
      exact hbelow j hj
    · rw [mem_singleton.1 hj]
      exact (G.old i (mem_singleton_self i)).congr he.symm (fun g hg => (hs g (hA ▸ hg)).symm) rfl fun _ _ => rfl
  case new =>
    intro j hj
    rcases mem_append.1 hj with hj | hj
    · exact (F.new j hj).congr rfl (fun _ _ => rfl) (hdst j hj) (hnew j hj)
    · rw [mem_singleton.1 hj]
      exact (G.new i (mem_singleton_self i)).congr he.symm (fun g hg => (hs g (hA ▸ hg)).symm) rfl fun _ _ => rfl
  case counts =>
    rw [flatMap_append, userFrames_append, foldl_append, ← F.counts, G.counts, F.draws.len,
      flatMap_singleton, flatMap_singleton, hL]
  case taken =>
    intro hr
    obtain ⟨h1, h2⟩ := F.taken hr
    obtain ⟨h3, h4⟩ := G.taken h1
    refine ⟨h3, ?_⟩
    rw [Finset.card_union_of_disjoint (F.draws.disjoint G.draws), h2, h4, flatMap_append, length_append,
      flatMap_singleton, flatMap_singleton, hA]

end Next

/-- the loop over the entries of a table -/
theorem forkLoop_spec {body : Kern → Fin 512 → Except Stop Kern} (P : ForkPre l src dst is k₀)
    (hbody : ∀ k i, ForkPre l src dst [i] k → i ∈ is → k.mem dst i = k₀.mem dst i → k.pml4 = k₀.pml4 →
      Meets (body k i) (ForkStop k (paging.tablesAt k.mem l src i).length) fun k' => ∃ S, Forked l src dst [i] k k' S) :
    Meets (is.foldlM body k₀) (ForkStop k₀ (is.flatMap (paging.tablesAt k₀.mem l src)).length)
      fun k' => ∃ S, Forked l src dst is k₀ k' S := by
  refine foldlM_meets (fun pre k => ∃ S, Forked l src dst pre k₀ k S) ⟨∅, .refl P.pmm⟩ ?_
  rintro pre i post k his ⟨S, F⟩
  refine (hbody k i (F.next P his) (P.split his).1 (F.target P his) F.regs.1).mono ?_ ?_
  · -- the pages taken so far and those still wanted are among the pages of the whole loop
    rintro e ⟨he, hshort⟩
    refine ⟨he, ?_⟩
    by_contra hc
    push Not at hc
    obtain ⟨hr, hcard⟩ := hc
    obtain ⟨hr', hS⟩ := F.taken hr
    rcases hshort with hshort | hshort
    · exact hr' hshort
    · obtain ⟨he, hs⟩ := F.todo P his
      have hA : paging.tablesAt k.mem l src i = paging.tablesAt k₀.mem l src i := gather_congr he hs
      have hlen : (is.flatMap (paging.tablesAt k₀.mem l src)).length =
          S.card + (paging.tablesAt k₀.mem l src i).length + (post.flatMap (paging.tablesAt k₀.mem l src)).length := by
        rw [his, flatMap_append, flatMap_cons, length_append, length_append, hS, Nat.add_assoc]
      have hsub : S.card ≤ k₀.pmm.freeSet.card := Finset.card_le_card F.draws.sub
      rw [F.draws.free, Finset.card_sdiff_of_subset F.draws.sub, hA] at hshort
      omega
  · rintro k' ⟨S', G⟩
    exact ⟨S ∪ S', F.append P his G⟩

end Append

/-! ## One entry -/

section Entry

variable {l src dst : ℕ} {i : Fin 512} {k : Kern}

/-- an absent entry stays absent -/
theorem forked_absent {k' : Kern} (P : ForkPre l src dst [i] k) (habs : has (k.mem src i) vmmPresent = false)
    (hdst : has (k'.mem dst i) vmmPresent = false) (hpmm : k'.pmm = k.pmm)
    (hregs : SameRegs k k')
    (hsame : ∀ f j, ¬ (f = dst ∧ j = i) → k'.mem f j = k.mem f j) : Forked l src dst [i] k k' ∅ := by
  have hne : src ≠ dst := fun h => P.dstOut (h ▸ mem_cons_self)
  have hsrc : k'.mem src i = k.mem src i := hsame src i fun hc => hne hc.1
  have hnil : paging.leavesAt k.mem l src i = [] := gather_absent habs
  have hsim : ∀ {R : U64 → U64 → Prop} {f : ℕ}, has (k'.mem f i) vmmPresent = false →
      Sim paging marked R k.mem k'.mem l src f i := by
    intro R f hf
    cases l with
    | zero => exact ⟨hf.trans habs.symm, fun hc => absurd hc (by rw [paging_present, habs]; decide)⟩
    | succ l => exact .inl ⟨habs, hf⟩
  constructor
  case draws => rw [hpmm]; exact .refl P.pmm
  case regs => exact hregs
  case outside => exact fun f j _ _ hc => hsame f j fun h => hc ⟨.inr h.1, mem_singleton.2 h.2⟩
  case old => exact fun j hj => mem_singleton.1 hj ▸ hsim (hsrc ▸ habs)
  case new => exact fun j hj => mem_singleton.1 hj ▸ hsim hdst
  case toHung => exact .of_nil fun j hj => mem_singleton.1 hj ▸ gather_absent hdst
  case counts => rw [hpmm, flatMap_singleton, hnil]; rfl
  case taken =>
    intro hr
    rw [hpmm, flatMap_singleton, Format.tablesAt, gather_absent habs]
    exact ⟨hr, rfl⟩

/-- a leaf is shared -/
theorem forked_leaf {k' : Kern} {S : Finset ℕ} (hp : has (k.mem src i) vmmPresent = true) (hD : Draws k.pmm S k'.pmm)
    (hregs : SameRegs k k')
    (hsrc : k'.mem src i = marked (k.mem src i)) (hdst : k'.mem dst i = marked (k.mem src i))
    (hsame : ∀ f j, ¬ ((f = src ∨ f = dst) ∧ j = i) → k'.mem f j = k.mem f j)
    (hcounts : k'.pmm.counts = (userFrames k.pmm.bitmapLen [(0, k.mem src i)]).foldl Pmm.bump k.pmm.counts)
    (htaken : k.pmm.refcounts ≠ none → k'.pmm.refcounts ≠ none ∧ S = ∅) : Forked 0 src dst [i] k k' S := by
  have hleaf : paging.leavesAt k.mem 0 src i = [(0, k.mem src i)] := if_pos hp
  have htab : ∀ (m : PhysMem) (f : ℕ) (j : Fin 512), paging.tablesAt m 0 f j = [] := fun m f j => ite_self _
  have hsim : ∀ {R : U64 → U64 → Prop} {f : ℕ}, k'.mem f i = marked (k.mem src i) →
      Sim paging marked R k.mem k'.mem 0 src f i := by
    intro R f hf
    exact ⟨by rw [hf]; exact present_marked _, fun _ => hf⟩
  constructor
  case draws => exact hD
  case regs => exact hregs
  case outside => exact fun f j _ _ hc => hsame f j (by rwa [mem_singleton] at hc)
  case old => exact fun j hj => mem_singleton.1 hj ▸ hsim hsrc
  case new => exact fun j hj => mem_singleton.1 hj ▸ hsim hdst
  case toHung => exact .of_nil fun j _ => htab _ _ j
  case counts => rw [flatMap_singleton, hleaf, hcounts]
  case taken =>
    intro hr
    refine ⟨(htaken hr).1, ?_⟩
    rw [(htaken hr).2, flatMap_singleton, htab]
    rfl

/-- the entries of a page table -/
theorem forkEntry_leaf {fill : ℕ → ℕ → Kern → Except Stop Kern} (P : ForkPre 0 src dst [i] k) :
    Meets (forkEntry fill 0 src dst k i) (ForkStop k (paging.tablesAt k.mem 0 src i).length)
      fun k' => ∃ S, Forked 0 src dst [i] k k' S := by
  have hne : src ≠ dst := fun h => P.dstOut (h ▸ mem_cons_self)
  simp only [forkEntry]
  cases hp : has (k.mem src i) vmmPresent with
  | false =>
    refine meets_ok ⟨∅, forked_absent P hp ?_ rfl ⟨rfl, rfl, rfl⟩ ?_⟩
    · rw [set_mem_self, zero_has]
    · exact fun f j hf => by rw [set_mem, if_neg hf]
  | true =>
    simp only [Bool.not_true, Bool.false_eq_true, if_false, true_or, if_true]
    cases hu : has (k.mem src i) vmmUser with
    | true =>
      simp only [if_true]
      rw [show stripWrite (k.mem src i) ||| cowMark = cow (k.mem src i) from rfl, pmmRef]
      refine ((Pmm.pmmRef_spec P.pmm (k.mem src i &&& pteMask)).mono
        (fun e he => ⟨.inr he.1, .inl he.2⟩) fun _ h => h).bind ?_
      rintro p ⟨S, hD, hS, hc⟩
      rw [pageIdx_mask] at hc
      have hm : marked (k.mem src i) = cow (k.mem src i) := if_pos hu
      have hcount : p.counts = (userFrames k.pmm.bitmapLen [(0, k.mem src i)]).foldl Pmm.bump k.pmm.counts := by
        by_cases hlt : frame (k.mem src i) < k.pmm.bitmapLen
        · rw [if_pos (show frame (k.mem src i) < _ from hlt)] at hc
          simp [userFrames, hu, hlt, Pmm.counts, hc]
        · rw [if_neg (show ¬ frame (k.mem src i) < _ from hlt)] at hc
          simp [userFrames, hlt, hc]
      refine meets_ok ⟨S, forked_leaf hp hD ⟨rfl, rfl, rfl⟩ ?_ ?_ ?_ hcount fun hr => ⟨(hS hr).2, (hS hr).1⟩⟩
      · rw [setPmm_mem, set_mem, if_neg fun h => hne h.1, set_mem_self, hm]
      · rw [setPmm_mem, set_mem_self, hm]
      · intro f j hf
        rw [setPmm_mem, set_mem, if_neg fun h => hf ⟨.inr h.1, h.2⟩, set_mem, if_neg fun h => hf ⟨.inl h.1, h.2⟩]
    | false =>
      have hm : marked (k.mem src i) = k.mem src i := if_neg (by rw [hu]; decide)
      have hnil : userFrames k.pmm.bitmapLen [(0, k.mem src i)] = [] := by simp [userFrames, hu]
      refine meets_ok ⟨∅, forked_leaf hp (.refl P.pmm) ⟨rfl, rfl, rfl⟩ ?_ ?_ ?_ ?_ fun hr => ⟨hr, rfl⟩⟩
      · rw [set_mem, if_neg fun h => hne h.1, hm]
      · rw [set_mem_self, hm]
      · exact fun f j hf => by rw [set_mem, if_neg fun h => hf ⟨.inr h.1, h.2⟩]
      · rw [hnil]; rfl

/-- `fill` copies whole tables of level `l` -/
def Fills (l : ℕ) (fill : ℕ → ℕ → Kern → Except Stop Kern) : Prop :=
  ∀ src dst k, ForkPre l src dst (List.finRange 512) k →
    Meets (fill src dst k) (ForkStop k ((List.finRange 512).flatMap (paging.tablesAt k.mem l src)).length)
      fun k' => ∃ S, Forked l src dst (List.finRange 512) k k' S

/-- the new table, with the copy in it, hung below an entry of `dst` -/
theorem forked_link {k₁ k₂ : Kern} {p : Pmm} {t : ℕ} {S : Finset ℕ} (P : ForkPre (l + 1) src dst [i] k)
    (hl : paging.link l (k.mem src i) = true) (ht : t ∈ k.pmm.freeSet) (hT : Takes k.pmm {t} p)
    (hk₁ : k₁ = (k.setPmm p).zero t) (F : Forked l (frame (k.mem src i)) t (finRange 512) k₁ k₂ S) :
    Forked (l + 1) src dst [i] k (k₂.set dst i (pageAddr t ||| (k.mem src i &&& 0xFFF#64))) ({t} ∪ S) := by
  set e := k.mem src i with he
  set e' := pageAddr t ||| (e &&& 0xFFF#64)
  set k' := k₂.set dst i e'
  have ht40 := Pmm.lt_of_free ht P.phys
  have hflags : SameFlags e e' := sameFlags_forked ht40 e
  have hl' : paging.link l e' = true := hflags.link.trans hl
  have hnext' : paging.next e' = t := frame_forked ht40 e
  have hsub : ∀ g ∈ paging.tables k.mem l (frame e) (finRange 512), g ∈ paging.tables k.mem (l + 1) src [i] := by
    intro g hg
    apply mem_cons_of_mem
    rw [flatMap_singleton, tablesAt_link hl]
    exact hg
  have hused : ∀ g ∈ paging.tables k.mem (l + 1) src [i], g ≠ t := by
    rintro g hg rfl
    exact P.used _ hg ht
  have hmem₁ : ∀ f, f ≠ t → k₁.mem f = k.mem f := fun f hf => by rw [hk₁, zero_mem_of_ne _ hf]; rfl
  have hA : Agree paging k.mem k₁.mem l (frame e) (finRange 512) :=
    .of_tables fun g hg => hmem₁ g (hused g (hsub g hg))
  have hdraw : Draws k.pmm ({t} ∪ S) k₂.pmm := hT.draws.trans (by have := F.draws; rwa [hk₁] at this)
  have hout : ∀ g, g ∉ k.pmm.freeSet → g ∉ {t} ∪ S := fun g hg => hdraw.notMem hg
  have hnotS : ∀ g, g ∉ k.pmm.freeSet → g ∉ S := fun g hg hc => hout g hg (Finset.mem_union_right _ hc)
  have hdst : dst ∉ paging.tables k.mem l (frame e) (finRange 512) := fun hc => P.dstOut (hsub _ hc)
  have hsrcdst : src ≠ dst := fun h => P.dstOut (h ▸ mem_cons_self)
  have hdt : dst ≠ t := fun h => P.dstUsed (h ▸ ht)
  -- the copy has not touched anything but the tables below and the pages taken
  have hkeep : ∀ f j, f ∉ {t} ∪ S → f ∉ paging.tables k.mem l (frame e) (finRange 512) → k₂.mem f j = k.mem f j := by
    intro f j hS hf
    rw [Finset.mem_union, not_or, Finset.mem_singleton] at hS
    rw [F.outside f j hS.2, hmem₁ f hS.1]
    · intro i' hi' hc
      exact hf (mem_cons_of_mem _ (mem_flatMap.2 ⟨i', hi', hA.tablesAt hi' ▸ hc⟩))
    · rintro ⟨rfl | rfl, -⟩
      · exact hf mem_cons_self
      · exact hS.1 rfl
  have hset : ∀ g, g ≠ dst → k'.mem g = k₂.mem g := fun g hg => set_mem_of_ne _ _ _ hg
  have hsrc : k'.mem src i = e := by
    rw [hset src hsrcdst, hkeep src i (hout _ (P.used _ mem_cons_self))]
    intro hc
    rw [← paging_next, ← tablesAt_link hl] at hc
    exact root_ne_of_tables P.tree (mem_singleton_self i) hc rfl
  have hentry : k'.mem dst i = e' := set_mem_self ..
  have hfresh : ∀ j, ∀ g ∈ paging.tablesAt k₂.mem l t j, g ∈ S := fun j => F.fresh j (mem_finRange j)
  have hSdst : ∀ g ∈ S, g ≠ dst := by
    rintro g hg rfl
    exact hnotS _ P.dstUsed hg
  have hleft : ∀ j, ∀ g ∈ paging.tablesAt k₁.mem l (frame e) j, k.mem g = k₁.mem g := by
    intro j g hg
    rw [hA.tablesAt (mem_finRange j)] at hg
    exact (hA.below j (mem_finRange j) g hg).symm
  have hcopy : Agree paging k₂.mem k'.mem l t (finRange 512) := by
    refine .of_tables fun g hg => hset g ?_
    rcases mem_cons.1 hg with rfl | hg
    · exact hdt.symm
    · obtain ⟨j, -, hg⟩ := mem_flatMap.1 hg
      exact hSdst g (hfresh j g hg)
  have hleaves : paging.leavesAt k.mem (l + 1) src i =
      (finRange 512).flatMap (paging.leavesAt k₁.mem l (frame e)) := by
    rw [← Format.leaves, hA.leaves, leavesAt_link hl, paging_next]
  constructor
  case draws => exact hdraw
  case regs =>
    have := F.regs
    rw [hk₁] at this
    exact this
  case outside =>
    intro f j hS hf hne
    rw [set_mem, if_neg fun h => hne ⟨.inr h.1, mem_singleton.2 h.2⟩, hkeep f j hS]
    have := hf i (mem_singleton_self i)
    rwa [tablesAt_link hl] at this
  case old =>
    intro j hj
    rw [mem_singleton.1 hj]
    refine .inr ⟨hl, hsrc ▸ hl, hsrc.symm, fun j => ?_⟩
    rw [hsrc]
    refine (F.old j (mem_finRange j)).congr (hA.root j (mem_finRange j)).symm (hleft j) ?_ ?_
    · exact congrFun (hset _ fun h => hdst (h ▸ mem_cons_self)) j
    · intro g hg
      rw [(F.old j (mem_finRange j)).tablesAt_eq, hA.tablesAt (mem_finRange j)] at hg
      apply hset
      rintro rfl
      exact hdst (mem_cons_of_mem _ (mem_flatMap.2 ⟨j, mem_finRange j, hg⟩))
  case new =>
    intro j hj
    rw [mem_singleton.1 hj]
    refine .inr ⟨hl, hentry ▸ hl', hentry ▸ hflags, fun j => ?_⟩
    rw [hentry, hnext']
    refine (F.new j (mem_finRange j)).congr (hA.root j (mem_finRange j)).symm (hleft j) ?_ ?_
    · exact congrFun (hset t hdt.symm) j
    · exact fun g hg => hset g (hSdst g (hfresh j g hg))
  case toHung =>
    have htS : t ∉ S := F.draws.notMem (by rw [hk₁]; exact hT.draws.taken_notMem_free (Finset.mem_singleton_self t))
    exact (F.toHung.planted htS).hung hcopy (hentry ▸ hl') (hentry ▸ hnext') (hentry ▸ exec_forked ht40 e)
  case counts =>
    have hc : k₁.pmm.counts = k.pmm.counts := by rw [hk₁]; exact congrArg (Option.getD · _) hT.refs
    have hlen : k₁.pmm.bitmapLen = k.pmm.bitmapLen := by rw [hk₁]; exact hT.len
    rw [flatMap_singleton, hleaves, ← hc, ← hlen]
    exact F.counts
  case taken =>
    intro hr
    have hr₁ : k₁.pmm.refcounts ≠ none := by rw [hk₁]; exact fun hc => hr (hT.refs.symm.trans hc)
    obtain ⟨h1, h2⟩ := F.taken hr₁
    refine ⟨h1, ?_⟩
    have hdis : Disjoint {t} S := by
      have := F.draws
      rw [hk₁] at this
      exact hT.draws.disjoint this
    have htabs := congrArg List.length hA.tables
    rw [Format.tables, Format.tables, length_cons, length_cons] at htabs
    have hbelow : paging.tablesAt k.mem (l + 1) src i = paging.tables k.mem l (frame e) (finRange 512) :=
      tablesAt_link hl
    rw [Finset.card_union_of_disjoint hdis, h2, flatMap_singleton, hbelow, Finset.card_singleton, Format.tables,
      length_cons]
    omega

/-- the table below an entry can be copied to a new one -/
theorem ForkPre.below {t : ℕ} {p : Pmm} (P : ForkPre (l + 1) src dst [i] k) (hl : paging.link l (k.mem src i) = true)
    (ht : t ∈ k.pmm.freeSet) (hT : Takes k.pmm {t} p) :
    Agree paging k.mem ((k.setPmm p).zero t).mem l (frame (k.mem src i)) (finRange 512) ∧
      ForkPre l (frame (k.mem src i)) t (finRange 512) ((k.setPmm p).zero t) := by
  have hsub : ∀ g ∈ paging.tables k.mem l (frame (k.mem src i)) (finRange 512),
      g ∈ paging.tables k.mem (l + 1) src [i] := by
    intro g hg
    apply mem_cons_of_mem
    rwa [flatMap_singleton, tablesAt_link hl]
  have hne : ∀ g ∈ paging.tables k.mem l (frame (k.mem src i)) (finRange 512), g ≠ t := by
    rintro g hg rfl
    exact P.used _ (hsub g hg) ht
  have hA : Agree paging k.mem ((k.setPmm p).zero t).mem l (frame (k.mem src i)) (finRange 512) :=
    .of_tables fun g hg => zero_mem_of_ne _ (hne g hg)
  refine ⟨hA, ?_⟩
  constructor
  case pmm => exact hT.ok
  case phys => exact hT.len ▸ P.phys
  case nodup => exact nodup_finRange 512
  case tree =>
    rw [hA.tables]
    exact tables_nodup_down P.tree (mem_singleton_self i) hl
  case used =>
    rw [hA.tables]
    exact fun g hg => hT.draws.notMem_free (P.used g (hsub g hg))
  case dstUsed => exact hT.draws.taken_notMem_free (Finset.mem_singleton_self t)
  case dstOut =>
    rw [hA.tables]
    exact fun hc => hne t hc rfl
  case plain =>
    rw [hA.leaves]
    intro q hq
    apply P.plain q
    rw [Format.leaves, flatMap_singleton, leavesAt_link hl]
    exact hq

theorem forkLink_spec {fill : ℕ → ℕ → Kern → Except Stop Kern} {oom : Stop} (hfill : Fills l fill)
    (hoom : oom = .panic .vmmOomForkTables ∨ oom = .wild) (P : ForkPre (l + 1) src dst [i] k)
    (hl : paging.link l (k.mem src i) = true) :
    Meets (forkLink fill oom dst i (k.mem src i) k) (ForkStop k (paging.tablesAt k.mem (l + 1) src i).length)
      fun k' => ∃ S, Forked (l + 1) src dst [i] k k' S := by
  have hbelow : paging.tablesAt k.mem (l + 1) src i =
      paging.tables k.mem l (frame (k.mem src i)) (finRange 512) := tablesAt_link hl
  unfold forkLink
  refine meets_alloc P.pmm (fun h => ?_) fun t p ht h0 hT => ?_
  · refine meets_error ⟨hoom, .inr ?_⟩
    rw [h, hbelow]
    simp [Format.tables]
  simp only [if_neg h0, (Pmm.pageIdx_of_free P.pmm ht).2]
  obtain ⟨hA, hPre⟩ := P.below hl ht hT
  refine ((hfill _ _ _ hPre).mono ?_ fun _ h => h).bind ?_
  · rintro e ⟨he, hshort⟩
    refine ⟨he, hshort.imp (fun h => hT.refs.symm.trans h) fun h => ?_⟩
    have hcard : ((k.setPmm p).zero t).pmm.freeSet.card = k.pmm.freeSet.card - 1 := by
      rw [show ((k.setPmm p).zero t).pmm.freeSet = _ from hT.free, Finset.card_sdiff_of_subset hT.sub]
      rfl
    have htabs := congrArg List.length hA.tables
    rw [Format.tables, Format.tables, length_cons, length_cons] at htabs
    rw [hbelow, Format.tables, length_cons]
    omega
  · rintro k₂ ⟨S, F⟩
    exact meets_ok ⟨_, forked_link P hl ht hT rfl F⟩

/-- a present entry above the page tables points to a table -/
theorem ForkPre.link (P : ForkPre (l + 1) src dst [i] k) (hp : has (k.mem src i) vmmPresent = true) :
    paging.link l (k.mem src i) = true := by
  by_contra hl
  have : (l + 1, k.mem src i) ∈ paging.leaves k.mem (l + 1) src [i] := by
    rw [Format.leaves, flatMap_singleton, Format.leavesAt, gather, if_neg hl, paging_present, if_pos hp]
    exact mem_singleton_self _
  exact absurd (P.plain _ this) (Nat.succ_ne_zero l)

/-- and is not a large page -/
theorem ForkPre.small (P : ForkPre (l + 1) src dst [i] k) (hp : has (k.mem src i) vmmPresent = true) (hl2 : l < 2) :
    has (k.mem src i) pdePs = false := by
  cases hs : has (k.mem src i) pdePs with
  | false => rfl
  | true => exact absurd (P.link hp) (by rw [not_paging_link hl2 hs]; decide)

/-- the entries of the tables above the page tables -/
theorem forkEntry_link {fill : ℕ → ℕ → Kern → Except Stop Kern} (hfill : Fills l fill) (hl2 : l < 2)
    (P : ForkPre (l + 1) src dst [i] k) :
    Meets (forkEntry fill (l + 1) src dst k i) (ForkStop k (paging.tablesAt k.mem (l + 1) src i).length)
      fun k' => ∃ S, Forked (l + 1) src dst [i] k k' S := by
  simp only [forkEntry]
  cases hp : has (k.mem src i) vmmPresent with
  | false =>
    refine meets_ok ⟨∅, forked_absent P hp ?_ rfl ⟨rfl, rfl, rfl⟩ ?_⟩
    · rw [set_mem_self, zero_has]
    · exact fun f j hf => by rw [set_mem, if_neg hf]
  | true =>
    simp only [P.small hp hl2, Bool.not_true, Bool.false_eq_true, if_false, Nat.succ_ne_zero, and_false, or_self]
    exact forkLink_spec hfill (.inl rfl) P (P.link hp)

end Entry

/-! ## Whole tables -/

/-- **`fork_table`** copies a tree of 4 KiB leaves. -/
theorem forkTable_spec (l : ℕ) (hl : l ≤ 2) : Fills l (forkTable l) := by
  induction l with
  | zero =>
    intro src dst k P
    rw [forkTable]
    refine forkLoop_spec P ?_
    intro k i P _ _ _
    exact forkEntry_leaf P
  | succ l ih =>
    intro src dst k P
    rw [forkTable]
    refine forkLoop_spec P ?_
    intro k i P _ _ _
    exact forkEntry_link (ih (by omega)) (by omega) P

/-! ## The user half -/

/-- what `vmm_fork_user_space` needs of the active space -/
structure SpacePre (k : Kern) : Prop where
  pmm : k.pmm.Ok
  phys : k.pmm.bitmapLen ≤ 2 ^ 40
  tree : (paging.tables k.mem 3 k.pml4 lowerHalf).Nodup
  used : ∀ g ∈ paging.tables k.mem 3 k.pml4 lowerHalf, g ∉ k.pmm.freeSet
  plain : ∀ p ∈ paging.leaves k.mem 3 k.pml4 lowerHalf, p.1 = 0

/-- what `vmm_create_space` does: a new PML4 in page `d` with the upper half of the active one. That one is read after
the new page is cleared. -/
structure SpaceCreated (k k' : Kern) (d : ℕ) : Prop where
  fresh : d ∈ k.pmm.freeSet
  takes : Takes k.pmm {d} k'.pmm
  regs : SameRegs k k'
  other : ∀ f, f ≠ d → k'.mem f = k.mem f
  lower : ∀ i ∈ lowerHalf, k'.mem d i = 0
  upper : ∀ i ∈ upperHalf, k'.mem d i = if k.pml4 = d then 0 else k.mem k.pml4 i

theorem spaceCreated {k : Kern} {d : ℕ} {p : Pmm} (hd : d ∈ k.pmm.freeSet) (hT : Takes k.pmm {d} p) :
    SpaceCreated k (((k.setPmm p).zero d).copyUpper d) d := by
  have hrest := copyUpper_rest ((k.setPmm p).zero d) d
  refine ⟨hd, ?_, hrest.2, ?_, ?_, ?_⟩
  · rw [hrest.1]
    exact hT
  · intro f hf
    funext j
    rw [copyUpper_mem, if_neg fun hc => hf hc.1, zero_mem_of_ne _ hf, setPmm_mem]
  · intro i hi
    rw [copyUpper_mem, if_neg fun hc => mem_upperHalf_iff.1 hc.2 hi, zero_mem_self]
  · intro i hi
    rw [copyUpper_mem, if_pos ⟨rfl, hi⟩]
    show ((k.setPmm p).zero d).mem k.pml4 i = _
    by_cases hk : k.pml4 = d
    · rw [if_pos hk, hk, zero_mem_self]
    · rw [if_neg hk, zero_mem_of_ne _ hk, setPmm_mem]

/-- the new space with root `d` beside the old one -/
structure SpaceForked (k k' : Kern) (d : ℕ) (S : Finset ℕ) : Prop extends Planted 3 d lowerHalf k'.mem S where
  draws : Draws k.pmm S k'.pmm
  regs : SameRegs k k'
  outside : ∀ f, f ∉ S → f ∉ paging.tables k.mem 3 k.pml4 lowerHalf → k'.mem f = k.mem f
  root : ∀ i, i ∉ lowerHalf → k'.mem k.pml4 i = k.mem k.pml4 i
  upper : ∀ i, i ∉ lowerHalf → k'.mem d i = k.mem k.pml4 i
  old : ∀ i ∈ lowerHalf, Sim paging marked Eq k.mem k'.mem 3 k.pml4 k.pml4 i
  new : ∀ i ∈ lowerHalf, Sim paging marked SameFlags k.mem k'.mem 3 k.pml4 d i
  counts : k'.pmm.counts =
    (userFrames k.pmm.bitmapLen (paging.leaves k.mem 3 k.pml4 lowerHalf)).foldl Pmm.bump k.pmm.counts
  taken : k.pmm.refcounts ≠ none →
    k'.pmm.refcounts ≠ none ∧ S.card = (paging.tables k.mem 3 k.pml4 lowerHalf).length

theorem forkTop_spec {k : Kern} {d : ℕ} {i : Fin 512} (P : ForkPre 3 k.pml4 d [i] k)
    (hd : has (k.mem d i) vmmPresent = false) :
    Meets (forkTop d k i) (ForkStop k (paging.tablesAt k.mem 3 k.pml4 i).length)
      fun k' => ∃ S, Forked 3 k.pml4 d [i] k k' S := by
  unfold forkTop
  cases hp : has (k.mem k.pml4 i) vmmPresent with
  | false => exact meets_ok ⟨∅, forked_absent P hp hd rfl ⟨rfl, rfl, rfl⟩ fun _ _ _ => rfl⟩
  | true => exact forkLink_spec (forkTable_spec 2 le_rfl) (.inr rfl) P (P.link hp)

/-- the new PML4, before anything is copied to its user half -/
theorem SpacePre.start {k k₁ : Kern} {d : ℕ} (P : SpacePre k) (C : SpaceCreated k k₁ d) :
    Agree paging k.mem k₁.mem 3 k.pml4 lowerHalf ∧ ForkPre 3 k.pml4 d lowerHalf k₁ := by
  have hne : ∀ g ∈ paging.tables k.mem 3 k.pml4 lowerHalf, g ≠ d := fun g hg hc => P.used g hg (hc ▸ C.fresh)
  have hA : Agree paging k.mem k₁.mem 3 k.pml4 lowerHalf := .of_tables fun g hg => C.other g (hne g hg)
  refine ⟨hA, ?_⟩
  constructor
  case pmm => exact C.takes.ok
  case phys => rw [C.takes.len]; exact P.phys
  case nodup => exact lowerHalf_nodup
  case tree => rw [hA.tables]; exact P.tree
  case used =>
    rw [hA.tables]
    exact fun g hg => C.takes.draws.notMem_free (P.used g hg)
  case dstUsed => exact C.takes.draws.taken_notMem_free (Finset.mem_singleton_self d)
  case dstOut => rw [hA.tables]; exact fun hc => hne d hc rfl
  case plain => rw [hA.leaves]; exact P.plain

/-- **`vmm_fork_user_space`** builds a second space of the same shape over the same pages, all of them copy-on-write in
both. It stops only for want of pages. -/
theorem vmmFork_spec {k : Kern} (P : SpacePre k) :
    Meets k.vmmForkUserSpace
      (fun e => (e = .panic .vmmOomForkPml4 ∨ e = .panic .vmmOomForkTables ∨ e = .wild) ∧
        (k.pmm.refcounts = none ∨ k.pmm.freeSet.card < (paging.tables k.mem 3 k.pml4 lowerHalf).length))
      fun r => ∃ d S, r.1 = pageAddr d ∧ d ∈ k.pmm.freeSet ∧ SpaceForked k r.2 d S := by
  unfold vmmForkUserSpace
  refine meets_alloc P.pmm (fun h => ?_) fun d p hd h0 hT => ?_
  · refine meets_error ⟨.inl rfl, .inr ?_⟩
    rw [h]
    simp [Format.tables]
  simp only [if_neg h0, (Pmm.pageIdx_of_free P.pmm hd).2]
  have C := spaceCreated hd hT
  obtain ⟨hA, hPre⟩ := P.start C
  have hne : ∀ g ∈ paging.tables k.mem 3 k.pml4 lowerHalf, g ≠ d := by
    rintro g hg rfl
    exact P.used g hg hd
  set k₁ := ((k.setPmm p).zero d).copyUpper d
  have hT := C.takes
  refine ((forkLoop_spec hPre ?_).mono ?_ fun _ h => h).bind ?_
  · intro k' i Pi hi hdi hroot
    have hr : k.pml4 = k'.pml4 := (hroot.trans C.regs.1).symm
    rw [hr] at Pi ⊢
    exact forkTop_spec Pi (by rw [hdi, C.lower i hi, zero_has])
  · rintro e ⟨he, hshort⟩
    have htabs := congrArg List.length hA.tables
    rw [Format.tables, Format.tables, length_cons, length_cons] at htabs
    refine ⟨.inr he, hshort.imp (fun h => ?_) fun h => ?_⟩
    · exact hT.refs.symm.trans h
    · rw [hT.free, Finset.card_sdiff_of_subset hT.sub, Finset.card_singleton] at h
      rw [Format.tables, length_cons]
      omega
  rintro k₂ ⟨S, F⟩
  have hdraw : Draws k.pmm ({d} ∪ S) k₂.pmm := hT.draws.trans F.draws
  have hdS : d ∉ S := F.draws.notMem (hT.draws.taken_notMem_free (Finset.mem_singleton_self d))
  have hroot : k.pml4 ∈ paging.tables k.mem 3 k.pml4 lowerHalf := mem_cons_self
  have hkeep : ∀ f j, f ∉ {d} ∪ S → (f ∈ paging.tables k.mem 3 k.pml4 lowerHalf → f = k.pml4 ∧ j ∉ lowerHalf) →
      k₂.mem f j = k.mem f j := by
    intro f j hS hf
    rw [Finset.mem_union, not_or, Finset.mem_singleton] at hS
    rw [F.outside f j hS.2, C.other f hS.1]
    · intro i hi hc
      rw [hA.tablesAt hi] at hc
      have := (hf (mem_cons_of_mem _ (mem_flatMap.2 ⟨i, hi, hc⟩))).1
      exact root_ne_of_tables P.tree hi hc this
    · rintro ⟨rfl | rfl, hj⟩
      · exact (hf hroot).2 hj
      · exact hS.1 rfl
  have hleft : ∀ i ∈ lowerHalf, ∀ g ∈ paging.tablesAt k₁.mem 3 k.pml4 i, k.mem g = k₁.mem g := by
    intro i hi g hg
    rw [hA.tablesAt hi] at hg
    exact (hA.below i hi g hg).symm
  have hleaves : lowerHalf.flatMap (paging.leavesAt k₁.mem 3 k.pml4) = paging.leaves k.mem 3 k.pml4 lowerHalf :=
    hA.leaves
  refine meets_ok ⟨d, {d} ∪ S, rfl, hd, ?_⟩
  constructor
  case draws => exact hdraw
  case regs => exact C.regs.trans F.regs
  case outside => exact fun f hS hf => funext fun j => hkeep f j hS fun hc => absurd hc hf
  case root => exact fun i hi => hkeep _ i (hdraw.notMem (P.used _ hroot)) fun _ => ⟨rfl, hi⟩
  case upper =>
    intro i hi
    rw [F.outside d i hdS, C.upper i (mem_upperHalf_iff.2 hi), if_neg (hne _ hroot)]
    · exact fun j hj hc => hne d (mem_cons_of_mem _ (mem_flatMap.2 ⟨j, hj, hA.tablesAt hj ▸ hc⟩)) rfl
    · exact fun hc => hi hc.2
  case old =>
    exact fun i hi => (F.old i hi).congr (hA.root i hi).symm (hleft i hi) rfl fun _ _ => rfl
  case new =>
    exact fun i hi => (F.new i hi).congr (hA.root i hi).symm (hleft i hi) rfl fun _ _ => rfl
  case toPlanted => exact F.toHung.planted hdS
  case counts =>
    have hc : k₁.pmm.counts = k.pmm.counts := congrArg (Option.getD · _) hT.refs
    have := F.counts
    rwa [hleaves, hc, hT.len] at this
  case taken =>
    intro hr
    obtain ⟨h1, h2⟩ := F.taken (by rw [hT.refs]; exact hr)
    have htabs := congrArg List.length hA.tables
    rw [Format.tables, length_cons] at htabs
    refine ⟨h1, ?_⟩
    rw [Finset.card_union_of_disjoint (Finset.disjoint_singleton_left.2 hdS), Finset.card_singleton, h2, ← htabs]
    omega

end Kern

end Uix
