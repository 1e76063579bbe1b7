/-
Several user address spaces in one memory.

`Spaces k roots` says that the user halves below the given PML4 pages are trees of used pages with 4 KiB user leaves,
that the pages mapped are used and hold no table, that no space maps a page twice, and that a page mapped by two spaces
has a reference counted. The kernel half is free to be anything.

- `Spaces.kept`, `Spaces.retained`: tables may be added, memory outside the tables may change, pages may be given back.
- `Spaces.attach`, `Spaces.repaint`: a leaf for a page not mapped yet; other flags for the page mapped.
- `Spaces.forked`, `Spaces.created`: one space more.
- `Spaces.view`: what ring 3 reads in one of the spaces.
-/
import Uix.Memory.Mmu
import Uix.Memory.ForkTranslation

namespace Uix.Kern

open Machine Radix Radix.Format Bytes List Function
open Pmm (pageIdx pageAddr Takes Draws)

/-- the pages that a space maps in its user half -/
def frames (m : PhysMem) (r : ℕ) : List ℕ := (paging.leaves m 3 r lowerHalf).map fun p => frame p.2

structure Spaces (k : Kern) (roots : List ℕ) : Prop where
  trees : Trees k roots lowerHalf
  plain : ∀ r ∈ roots, ∀ p ∈ paging.leaves k.mem 3 r lowerHalf, p.1 = 0 ∧ has p.2 vmmUser = true
  links : ∀ r ∈ roots, ∀ e ∈ paging.links k.mem 3 r lowerHalf, TableLink e
  inside : ∀ r ∈ roots, ∀ f ∈ frames k.mem r, f < k.pmm.bitmapLen
  used : ∀ r ∈ roots, ∀ f ∈ frames k.mem r, f ∉ k.pmm.freeSet
  apart : ∀ r ∈ roots, ∀ f ∈ frames k.mem r, f ∉ paging.forest k.mem 3 roots lowerHalf
  own : ∀ r ∈ roots, (frames k.mem r).Nodup
  counted : ∀ r ∈ roots, ∀ r' ∈ roots, r ≠ r' → ∀ f ∈ frames k.mem r, f ∈ frames k.mem r' → 1 ≤ k.pmm.counts f

section Frames

variable {m m' : PhysMem} {r f : ℕ}

theorem mem_frames : f ∈ frames m r ↔ ∃ x : ℕ → Fin 512, x 3 ∈ lowerHalf ∧ ∃ p, paging.walk m 3 r x = some p ∧
    frame p.2 = f := by
  simp only [frames, mem_map, mem_leaves]
  constructor
  · rintro ⟨p, ⟨x, hx, hw⟩, hf⟩
    exact ⟨x, hx, p, hw, hf⟩
  · rintro ⟨x, hx, p, hw, hf⟩
    exact ⟨p, ⟨x, hx, hw⟩, hf⟩

/-- the page at the end of a walk -/
theorem frame_mem_frames {x : ℕ → Fin 512} {p : ℕ × U64} (hx : x 3 ∈ lowerHalf) (hw : paging.walk m 3 r x = some p) :
    frame p.2 ∈ frames m r := mem_frames.2 ⟨x, hx, p, hw, rfl⟩

end Frames

section Kept

variable {k k' : Kern} {roots : List ℕ} {S : Finset ℕ}

theorem Spaces.nil (hk : k.pmm.Ok) (hphys : k.pmm.bitmapLen ≤ 2 ^ 40) : Spaces k [] := by
  have hnone : ∀ {P : ℕ → Prop}, ∀ r ∈ ([] : List ℕ), P r := fun r hr => absurd hr not_mem_nil
  exact ⟨⟨hk, hphys, nodup_nil, hnone, hnone⟩, hnone, hnone, hnone, hnone, hnone, hnone, hnone⟩

/-- the active space is one that fork can copy -/
theorem Spaces.spacePre (h : Spaces k roots) (hr : k.pml4 ∈ roots) : SpacePre k where
  pmm := h.trees.pmm
  phys := h.trees.phys
  tree := tree_of_forest h.trees.nodup hr
  used g hg := h.trees.used g (mem_forest.2 ⟨_, hr, hg⟩)
  plain p hp := (h.plain _ hr p hp).1

theorem Spaces.walk_plain (h : Spaces k roots) {r : ℕ} (hr : r ∈ roots) {x : ℕ → Fin 512} (hx : x 3 ∈ lowerHalf)
    {p : ℕ × U64} (hw : paging.walk k.mem 3 r x = some p) : ∃ e, p = (0, e) ∧ has e vmmUser = true := by
  obtain ⟨l, e⟩ := p
  obtain ⟨h0, hu⟩ := h.plain r hr _ (mem_leaves.2 ⟨x, hx, hw⟩)
  exact ⟨e, Prod.ext h0 rfl, hu⟩

/-- **What ring 3 reads.** -/
theorem Spaces.view (h : Spaces k roots) {r : ℕ} (hr : r ∈ roots) (va : UserAddr) :
    userByte k.mem r va.1 = (paging.walk k.mem 3 r (idx va.1)).map fun p =>
      getByte (k.mem (frame p.2)) (va.1.toNat % pageSize) := by
  cases hw : paging.walk k.mem 3 r (idx va.1) with
  | none => rw [userByte_absent hw]; rfl
  | some p =>
    obtain ⟨e, rfl, hu⟩ := h.walk_plain hr va.lower hw
    have hl : ∀ e ∈ paging.linksAt k.mem 3 r (idx va.1 3), TableLink e := fun e he =>
      h.links r hr e (mem_flatMap.2 ⟨_, va.lower, he⟩)
    rw [userByte_leaf hl hw hu]
    rfl

/-- tables are used pages, so there are at most as many as there are used pages -/
theorem Spaces.room (h : Spaces k roots) {r : ℕ} (hr : r ∈ roots) :
    (paging.tables k.mem 3 r lowerHalf).length + k.pmm.freeSet.card ≤ k.pmm.bitmapLen := by
  have hnodup : (paging.tables k.mem 3 r lowerHalf).Nodup := tree_of_forest h.trees.nodup hr
  have hdisj : Disjoint (paging.tables k.mem 3 r lowerHalf).toFinset k.pmm.freeSet := by
    refine Finset.disjoint_left.2 fun g hg => h.trees.used g ?_
    exact mem_forest.2 ⟨r, hr, mem_toFinset.1 hg⟩
  calc (paging.tables k.mem 3 r lowerHalf).length + k.pmm.freeSet.card
      = ((paging.tables k.mem 3 r lowerHalf).toFinset ∪ k.pmm.freeSet).card := by
        rw [Finset.card_union_of_disjoint hdisj, toFinset_card_of_nodup hnodup]
    _ ≤ (Finset.range k.pmm.bitmapLen).card := by
        refine Finset.card_le_card fun g hg => Finset.mem_range.2 ?_
        rcases Finset.mem_union.1 hg with hg | hg
        · exact h.trees.inside g (mem_forest.2 ⟨r, hr, mem_toFinset.1 hg⟩)
        · exact (Pmm.mem_freeSet.1 hg).1
    _ = k.pmm.bitmapLen := Finset.card_range _

section Reframe

variable (h : Spaces k roots) (T : Trees k' roots lowerHalf)
  (hsub : ∀ g ∈ paging.forest k'.mem 3 roots lowerHalf, g ∈ paging.forest k.mem 3 roots lowerHalf ∨ g ∈ k.pmm.freeSet)
include h T hsub

/-- spaces that map the same pages as before, with tables added and other flags -/
theorem Spaces.reframe
    (hplain : ∀ r ∈ roots, ∀ p ∈ paging.leaves k'.mem 3 r lowerHalf, p.1 = 0 ∧ has p.2 vmmUser = true)
    (hlinks : ∀ r ∈ roots, ∀ e ∈ paging.links k'.mem 3 r lowerHalf, TableLink e)
    (hframes : ∀ r ∈ roots, frames k'.mem r = frames k.mem r)
    (hlen : k'.pmm.bitmapLen = k.pmm.bitmapLen) (hfree : k'.pmm.freeSet ⊆ k.pmm.freeSet)
    (hc : ∀ f, 1 ≤ k.pmm.counts f → 1 ≤ k'.pmm.counts f) : Spaces k' roots := by
  constructor
  case trees => exact T
  case plain => exact hplain
  case links => exact hlinks
  case inside =>
    intro r hr f hf
    rw [hframes r hr] at hf
    exact hlen ▸ h.inside r hr f hf
  case used =>
    intro r hr f hf hc
    rw [hframes r hr] at hf
    exact h.used r hr f hf (hfree hc)
  case apart =>
    intro r hr f hf hg
    rw [hframes r hr] at hf
    rcases hsub f hg with hg | hg
    · exact h.apart r hr f hf hg
    · exact h.used r hr f hf hg
  case own =>
    intro r hr
    rw [hframes r hr]
    exact h.own r hr
  case counted =>
    intro r hr r' hr' hne f hf hf'
    rw [hframes r hr] at hf
    rw [hframes r' hr'] at hf'
    exact hc f (h.counted r hr r' hr' hne f hf hf')

/-- tables may be added, and all that is not a table may change -/
theorem Spaces.kept (hleaves : ∀ r ∈ roots, paging.leaves k'.mem 3 r lowerHalf = paging.leaves k.mem 3 r lowerHalf)
    (hlinks : ∀ r ∈ roots, ∀ e ∈ paging.links k'.mem 3 r lowerHalf,
      e ∈ paging.links k.mem 3 r lowerHalf ∨ TableLink e)
    (hlen : k'.pmm.bitmapLen = k.pmm.bitmapLen) (hfree : k'.pmm.freeSet ⊆ k.pmm.freeSet)
    (hc : ∀ f, 1 ≤ k.pmm.counts f → 1 ≤ k'.pmm.counts f) : Spaces k' roots := by
  refine h.reframe T hsub ?_ ?_ ?_ hlen hfree hc
  · intro r hr p hp
    rw [hleaves r hr] at hp
    exact h.plain r hr p hp
  · intro r hr e he
    exact (hlinks r hr e he).elim (h.links r hr e) id
  · intro r hr
    rw [frames, hleaves r hr, frames]

end Reframe

theorem Trees.agree {is : List (Fin 512)} (T : Trees k roots is) (hA : ∀ r ∈ roots, Agree paging k.mem k'.mem 3 r is)
    (hD : Draws k.pmm S k'.pmm) : Trees k' roots is := by
  have hforest : paging.forest k'.mem 3 roots is = paging.forest k.mem 3 roots is :=
    flatMap_congr fun r hr => (hA r hr).tables
  refine ⟨hD.ok, hD.len ▸ T.phys, ?_, ?_, ?_⟩
  · rw [hforest]
    exact T.nodup
  · intro g hg
    rw [hforest] at hg
    rw [hD.len]
    exact T.inside g hg
  · intro g hg
    rw [hforest] at hg
    exact hD.notMem_free (T.used g hg)

/-- **Memory that holds no table of the spaces is free to change**, and pages that they do not use can be taken and
given back. -/
theorem Spaces.retained (h : Spaces k roots) (hA : ∀ r ∈ roots, Agree paging k.mem k'.mem 3 r lowerHalf)
    (hk : k'.pmm.Ok) (hlen : k'.pmm.bitmapLen = k.pmm.bitmapLen)
    (htables : ∀ g ∈ paging.forest k.mem 3 roots lowerHalf, g ∉ k'.pmm.freeSet)
    (hpages : ∀ r ∈ roots, ∀ f ∈ frames k.mem r, f ∉ k'.pmm.freeSet)
    (hc : ∀ r ∈ roots, ∀ r' ∈ roots, r ≠ r' → ∀ f ∈ frames k.mem r, f ∈ frames k.mem r' → 1 ≤ k'.pmm.counts f) :
    Spaces k' roots := by
  have hforest : paging.forest k'.mem 3 roots lowerHalf = paging.forest k.mem 3 roots lowerHalf :=
    flatMap_congr fun r hr => (hA r hr).tables
  have hframes : ∀ r ∈ roots, frames k'.mem r = frames k.mem r := fun r hr => by
    rw [frames, (hA r hr).leaves, frames]
  constructor
  case trees =>
    rw [← hforest] at htables
    refine ⟨hk, hlen ▸ h.trees.phys, ?_, fun g hg => ?_, htables⟩
    · rw [hforest]
      exact h.trees.nodup
    · rw [hforest] at hg
      exact hlen ▸ h.trees.inside g hg
  case plain =>
    intro r hr p hp
    rw [(hA r hr).leaves] at hp
    exact h.plain r hr p hp
  case links =>
    intro r hr e he
    rw [(hA r hr).links] at he
    exact h.links r hr e he
  case inside =>
    intro r hr f hf
    rw [hframes r hr] at hf
    exact hlen ▸ h.inside r hr f hf
  case used =>
    intro r hr f hf
    rw [hframes r hr] at hf
    exact hpages r hr f hf
  case apart =>
    intro r hr f hf
    rw [hframes r hr] at hf
    rw [hforest]
    exact h.apart r hr f hf
  case own =>
    intro r hr
    rw [hframes r hr]
    exact h.own r hr
  case counted =>
    intro r hr r' hr' hne f hf hf'
    rw [hframes r hr] at hf
    rw [hframes r' hr'] at hf'
    exact hc r hr r' hr' hne f hf hf'

/-- the same where pages are taken only -/
theorem Spaces.agree (h : Spaces k roots) (hA : ∀ r ∈ roots, Agree paging k.mem k'.mem 3 r lowerHalf)
    (hD : Draws k.pmm S k'.pmm) (hc : ∀ f, 1 ≤ k.pmm.counts f → 1 ≤ k'.pmm.counts f) : Spaces k' roots :=
  h.retained hA hD.ok hD.len (fun g hg => hD.notMem_free (h.trees.used g hg))
    (fun r hr f hf => hD.notMem_free (h.used r hr f hf))
    fun r hr r' hr' hne f hf hf' => hc f (h.counted r hr r' hr' hne f hf hf')

/-- other memory, other registers: a reading depends on the tables and the pages they lead to -/
theorem Spaces.view_agree (h : Spaces k roots) (h' : Spaces k' roots) {r : ℕ} (hr : r ∈ roots)
    (hA : Agree paging k.mem k'.mem 3 r lowerHalf) (hpage : ∀ f ∈ frames k.mem r, k'.mem f = k.mem f) (va : UserAddr) :
    userByte k'.mem r va.1 = userByte k.mem r va.1 := by
  rw [h'.view hr va, h.view hr va, hA.walk va.lower]
  cases hw : paging.walk k.mem 3 r (idx va.1) with
  | none => rfl
  | some p => rw [Option.map_some, Option.map_some, hpage _ (frame_mem_frames va.lower hw)]

/-- a page that holds no table can be filled with anything -/
theorem Agree.setPage {m : PhysMem} {f : ℕ} (hf : f ∉ paging.forest m 3 roots lowerHalf) (row : Fin 512 → U64) {r : ℕ}
    (hr : r ∈ roots) : Agree paging m (update m f row) 3 r lowerHalf := by
  refine Agree.of_tables fun g hg => update_of_ne ?_ _ _
  rintro rfl
  exact hf (mem_forest.2 ⟨r, hr, hg⟩)

theorem Spaces.setPage {f : ℕ} (h : Spaces k roots) (hf : f ∉ paging.forest k.mem 3 roots lowerHalf)
    (row : Fin 512 → U64) : Spaces { k with mem := update k.mem f row } roots :=
  h.agree (fun _ hr => Agree.setPage hf row hr) (.refl h.trees.pmm) fun _ hf => hf

/-- the registers do not matter -/
theorem Spaces.regs (h : Spaces k roots) (hmem : k'.mem = k.mem) (hpmm : k'.pmm = k.pmm) : Spaces k' roots := by
  refine h.agree (S := ∅) (fun _ _ => Agree.of_tables fun _ _ => by rw [hmem]) ?_ fun _ hf => hpmm ▸ hf
  rw [hpmm]
  exact .refl h.trees.pmm

theorem Spaces.switch (h : Spaces k roots) (pa : PAddr) : Spaces (k.vmmSwitch pa) roots := h.regs rfl rfl

/-- building tables -/
theorem Spaces.grown (h : Spaces k roots) (G : Grown roots lowerHalf k k' S) : Spaces k' roots := by
  have hcounts : k'.pmm.counts = k.pmm.counts := by rw [Pmm.counts, G.takes.refs, Pmm.counts]
  refine h.kept G.trees (fun g hg => ?_) G.leaves G.links G.takes.len ?_ fun f hf => hcounts ▸ hf
  · exact (G.sub g hg).imp_right fun hS => G.takes.sub hS
  · rw [G.takes.free]
    exact Finset.sdiff_subset

end Kept

/-! ## One leaf written -/

section Written

variable {k : Kern} {roots : List ℕ} {x : ℕ → Fin 512} {r g : ℕ} {e : U64}

section Patched

variable (P : Patched paging k.mem (k.set g (x 0) e).mem 3 roots lowerHalf x r g)
include P

theorem frames_written (hp : has e vmmPresent = true) : ∃ a b,
    frames k.mem r = a ++ (paging.leafOf (k.mem g (x 0))).map (fun p => frame p.2) ++ b ∧
      frames (k.set g (x 0) e).mem r = a ++ [frame e] ++ b := by
  obtain ⟨pre, post, h1, h2⟩ := P.leaves
  rw [set_mem_self, leafOf, if_pos (show paging.present e = true from hp)] at h2
  refine ⟨pre.map fun p => frame p.2, post.map fun p => frame p.2, ?_, ?_⟩
  · rw [frames, h1, map_append, map_append]
  · rw [frames, h2, map_append, map_append]
    rfl

theorem leaf_written {p : ℕ × U64} (h : p ∈ paging.leaves (k.set g (x 0) e).mem 3 r lowerHalf) :
    p ∈ paging.leaves k.mem 3 r lowerHalf ∨ p = (0, e) := by
  obtain ⟨pre, post, h1, h2⟩ := P.leaves
  rw [h2, mem_append, mem_append] at h
  rw [h1, mem_append, mem_append]
  rcases h with (h | h) | h
  · exact .inl (.inl (.inl h))
  · right
    rw [set_mem_self, leafOf] at h
    split_ifs at h
    · exact mem_singleton.1 h
    · exact absurd h not_mem_nil
  · exact .inl (.inr h)

/-- the pages mapped afterwards: those mapped before, and the page of the leaf -/
theorem mem_frames_written {r' f : ℕ}
    (hr' : r' ∈ roots) (hf : f ∈ frames (k.set g (x 0) e).mem r') : f ∈ frames k.mem r' ∨ (r' = r ∧ f = frame e) := by
  by_cases hne : r' = r
  · subst hne
    obtain ⟨p, hp, rfl⟩ := mem_map.1 hf
    rcases leaf_written P hp with hp | rfl
    · exact .inl (mem_map.2 ⟨p, hp, rfl⟩)
    · exact .inr ⟨rfl, rfl⟩
  · rw [frames, P.others r' hr' hne] at hf
    exact .inl hf

end Patched

section Written

variable (h : Spaces k roots) (hr : r ∈ roots) (hx : x 3 ∈ lowerHalf) (hat : At paging k.mem x 3 r 0 g)
include h hr hx hat

/-- a user leaf written at the end of a walk -/
theorem Spaces.written (hu : has e vmmUser = true) (hin : frame e < k.pmm.bitmapLen) (hused : frame e ∉ k.pmm.freeSet)
    (htab : frame e ∉ paging.forest k.mem 3 roots lowerHalf) (hown : (frames (k.set g (x 0) e).mem r).Nodup)
    (hcount : ∀ r' ∈ roots, r' ≠ r → frame e ∈ frames k.mem r' → 1 ≤ k.pmm.counts (frame e)) :
    Spaces (k.set g (x 0) e) roots := by
  have P := patched_set e h.trees lowerHalf_nodup hr hx hat
  have hother : ∀ r' ∈ roots, r' ≠ r → frames (k.set g (x 0) e).mem r' = frames k.mem r' := fun r' hr' hne => by
    rw [frames, P.others r' hr' hne, frames]
  have hmem : ∀ r' ∈ roots, ∀ f ∈ frames (k.set g (x 0) e).mem r',
      f ∈ frames k.mem r' ∨ (r' = r ∧ f = frame e) := fun r' hr' f hf => mem_frames_written P hr' hf
  constructor
  case trees => exact h.trees.set P
  case plain =>
    intro r' hr' p hp
    by_cases hne : r' = r
    · subst hne
      rcases leaf_written P hp with hp | rfl
      · exact h.plain r' hr' p hp
      · exact ⟨rfl, hu⟩
    · rw [P.others r' hr' hne] at hp
      exact h.plain r' hr' p hp
  case links =>
    intro r' hr' e' he'
    rw [P.links r' hr'] at he'
    exact h.links r' hr' e' he'
  case inside =>
    intro r' hr' f hf
    rcases hmem r' hr' f hf with hf | ⟨-, rfl⟩
    · exact h.inside r' hr' f hf
    · exact hin
  case used =>
    intro r' hr' f hf
    rcases hmem r' hr' f hf with hf | ⟨-, rfl⟩
    · exact h.used r' hr' f hf
    · exact hused
  case apart =>
    intro r' hr' f hf
    rw [P.forest]
    rcases hmem r' hr' f hf with hf | ⟨-, rfl⟩
    · exact h.apart r' hr' f hf
    · exact htab
  case own =>
    intro r' hr'
    by_cases hne : r' = r
    · subst hne
      exact hown
    · rw [hother r' hr' hne]
      exact h.own r' hr'
  case counted =>
    intro r1 hr1 r2 hr2 hne f hf1 hf2
    rcases hmem r1 hr1 f hf1 with hf1 | ⟨rfl, rfl⟩
    · rcases hmem r2 hr2 f hf2 with hf2 | ⟨rfl, rfl⟩
      · exact h.counted r1 hr1 r2 hr2 hne f hf1 hf2
      · exact hcount r1 hr1 hne hf1
    · rw [hother r2 hr2 fun h' => hne h'.symm] at hf2
      exact hcount r2 hr2 (fun h' => hne h'.symm) hf2

/-- **A page that no space maps gets a leaf**, in place of what was there. -/
theorem Spaces.attach (hp : has e vmmPresent = true) (hu : has e vmmUser = true) (hin : frame e < k.pmm.bitmapLen)
    (hused : frame e ∉ k.pmm.freeSet) (htab : frame e ∉ paging.forest k.mem 3 roots lowerHalf)
    (hnew : ∀ r' ∈ roots, frame e ∉ frames k.mem r') : Spaces (k.set g (x 0) e) roots := by
  refine h.written hr hx hat hu hin hused htab ?_ fun r' hr' _ hf => absurd hf (hnew r' hr')
  obtain ⟨a, b, h1, h2⟩ := frames_written (patched_set e h.trees lowerHalf_nodup hr hx hat) hp
  have hold := h.own r hr
  have hnot := hnew r hr
  rw [h1] at hold hnot
  rw [h2]
  have hsub : (a ++ b).Sublist (a ++ (paging.leafOf (k.mem g (x 0))).map (fun p => frame p.2) ++ b) := by
    rw [append_assoc]
    exact (sublist_append_right _ _).append_left a
  have hab : (a ++ b).Nodup := hold.sublist hsub
  have hnab : frame e ∉ a ++ b := fun hc => hnot (hsub.subset hc)
  have hperm : (a ++ [frame e] ++ b).Perm (frame e :: (a ++ b)) := by
    rw [append_assoc]
    exact perm_middle
  exact hperm.nodup_iff.2 (nodup_cons.2 ⟨hnab, hab⟩)

/-- **Other flags for the page that is mapped.** -/
theorem Spaces.repaint
    (hold : has (k.mem g (x 0)) vmmPresent = true) (hp : has e vmmPresent = true) (hu : has e vmmUser = true)
    (hf : frame e = frame (k.mem g (x 0))) : Spaces (k.set g (x 0) e) roots := by
  have hmem : frame e ∈ frames k.mem r := by
    rw [hf]
    exact frame_mem_frames (p := (0, k.mem g (x 0))) hx (hat.walk.trans (walk_zero hold))
  refine h.written hr hx hat hu (h.inside r hr _ hmem) (h.used r hr _ hmem) (h.apart r hr _ hmem) ?_ ?_
  · obtain ⟨a, b, h1, h2⟩ := frames_written (patched_set e h.trees lowerHalf_nodup hr hx hat) hp
    rw [leafOf, if_pos (show paging.present _ = true from hold)] at h1
    have hsame : frames (k.set g (x 0) e).mem r = frames k.mem r := by rw [h1, h2, hf]; rfl
    rw [hsame]
    exact h.own r hr
  · intro r' hr' hne hf'
    exact h.counted r' hr' r hr hne _ hf' hmem

end Written

/-- **What ring 3 reads after a leaf was written.** -/
theorem Spaces.view_set {va : UserAddr} (h : Spaces k roots) (h' : Spaces (k.set g (idx va.1 0) e) roots)
    (hr : r ∈ roots)
    (hat : At paging k.mem (idx va.1) 3 r 0 g) (hp : has e vmmPresent = true) {r' : ℕ} (hr' : r' ∈ roots)
    (va' : UserAddr) : userByte (k.set g (idx va.1 0) e).mem r' va'.1 =
      if r' = r ∧ ∀ j ≤ 3, idx va'.1 j = idx va.1 j then some (getByte (k.mem (frame e)) (va'.1.toNat % pageSize))
      else userByte k.mem r' va'.1 := by
  have P := patched_set e h.trees lowerHalf_nodup hr va.lower hat
  have hg : g ∈ paging.forest (k.set g (idx va.1 0) e).mem 3 roots lowerHalf := by
    rw [P.forest]
    exact mem_forest.2 ⟨r, hr, hat.mem_tables va.lower⟩
  -- pages hold no tables, so the store did not touch the page read
  have hpage : ∀ f ∈ frames (k.set g (idx va.1 0) e).mem r', (k.set g (idx va.1 0) e).mem f = k.mem f := by
    intro f hf
    apply set_mem_of_ne
    rintro rfl
    exact h'.apart r' hr' f hf hg
  rw [h'.view hr' va']
  by_cases hhit : r' = r ∧ ∀ j ≤ 3, idx va'.1 j = idx va.1 j
  · rw [if_pos hhit]
    obtain ⟨rfl, hj⟩ := hhit
    have hw : paging.walk (k.set g (idx va.1 0) e).mem 3 r' (idx va'.1) = some (0, e) := by
      have := walk_set P hj
      rwa [if_pos hp] at this
    rw [hw, Option.map_some, hpage _ (frame_mem_frames va'.lower hw)]
  · rw [if_neg hhit, h.view hr' va']
    have hw : paging.walk (k.set g (idx va.1 0) e).mem 3 r' (idx va'.1) = paging.walk k.mem 3 r' (idx va'.1) := by
      refine P.miss r' hr' _ va'.lower ?_
      by_contra hc
      push Not at hc
      exact hhit ⟨hc.1, hc.2⟩
    rw [hw]
    cases hwk : paging.walk k.mem 3 r' (idx va'.1) with
    | none => rfl
    | some p =>
      rw [hwk] at hw
      rw [Option.map_some, Option.map_some, hpage _ (frame_mem_frames va'.lower hw)]

end Written

/-! ## One space more -/

section More

variable {k k' : Kern} {roots : List ℕ} {d : ℕ} {S : Finset ℕ}

/-- some of the spaces -/
theorem Spaces.subset {roots' : List ℕ} (h : Spaces k roots) (hs : roots' ⊆ roots)
    (hnodup : (paging.forest k.mem 3 roots' lowerHalf).Nodup) : Spaces k roots' := by
  have hsub : ∀ g ∈ paging.forest k.mem 3 roots' lowerHalf, g ∈ paging.forest k.mem 3 roots lowerHalf := fun g hg => by
    obtain ⟨r, hr, hg⟩ := mem_forest.1 hg
    exact mem_forest.2 ⟨r, hs hr, hg⟩
  refine ⟨⟨h.trees.pmm, h.trees.phys, hnodup, ?_, ?_⟩, ?_, ?_, ?_, ?_, ?_, ?_, ?_⟩
  · exact fun g hg => h.trees.inside g (hsub g hg)
  · exact fun g hg => h.trees.used g (hsub g hg)
  · exact fun r hr => h.plain r (hs hr)
  · exact fun r hr => h.links r (hs hr)
  · exact fun r hr => h.inside r (hs hr)
  · exact fun r hr => h.used r (hs hr)
  · exact fun r hr f hf hc => h.apart r (hs hr) f hf (hsub f hc)
  · exact fun r hr => h.own r (hs hr)
  · exact fun r hr r' hr' => h.counted r (hs hr) r' (hs hr')

theorem Spaces.perm {roots' : List ℕ} (h : Spaces k roots) (hp : roots.Perm roots') : Spaces k roots' :=
  h.subset hp.symm.subset ((hp.flatMap_right _).nodup_iff.1 h.trees.nodup)

theorem Spaces.sublist {roots' : List ℕ} (h : Spaces k roots) (hs : roots'.Sublist roots) : Spaces k roots' :=
  h.subset hs.subset (h.trees.nodup.sublist (hs.flatMap _))

theorem Spaces.tail {r : ℕ} (h : Spaces k (r :: roots)) : Spaces k roots := h.sublist (sublist_cons_self r roots)

/-- a tree of used pages beside others -/
theorem Trees.cons (T : Trees k roots lowerHalf) (hnodup : (paging.tables k.mem 3 d lowerHalf).Nodup)
    (hin : ∀ g ∈ paging.tables k.mem 3 d lowerHalf, g < k.pmm.bitmapLen ∧ g ∉ k.pmm.freeSet)
    (hforest : ∀ g ∈ paging.tables k.mem 3 d lowerHalf, g ∉ paging.forest k.mem 3 roots lowerHalf) :
    Trees k (d :: roots) lowerHalf := by
  have hcons : paging.forest k.mem 3 (d :: roots) lowerHalf =
      paging.tables k.mem 3 d lowerHalf ++ paging.forest k.mem 3 roots lowerHalf := flatMap_cons
  refine ⟨T.pmm, T.phys, ?_, ?_, ?_⟩
  · rw [hcons]
    refine nodup_append.2 ⟨hnodup, T.nodup, ?_⟩
    rintro g hg _ hg' rfl
    exact hforest g hg hg'
  · intro g hg
    rw [hcons, mem_append] at hg
    exact hg.elim (fun hg => (hin g hg).1) (T.inside g)
  · intro g hg
    rw [hcons, mem_append] at hg
    exact hg.elim (fun hg => (hin g hg).2) (T.used g)

/-- a space by itself: a tree of used pages that maps used pages -/
structure Space (k : Kern) (d : ℕ) : Prop where
  nodup : (paging.tables k.mem 3 d lowerHalf).Nodup
  tables : ∀ g ∈ paging.tables k.mem 3 d lowerHalf, g < k.pmm.bitmapLen ∧ g ∉ k.pmm.freeSet
  plain : ∀ p ∈ paging.leaves k.mem 3 d lowerHalf, p.1 = 0 ∧ has p.2 vmmUser = true
  links : ∀ e ∈ paging.links k.mem 3 d lowerHalf, TableLink e
  pages : ∀ f ∈ frames k.mem d, f < k.pmm.bitmapLen ∧ f ∉ k.pmm.freeSet
  own : (frames k.mem d).Nodup

/-- a space beside others -/
theorem Spaces.cons (h : Spaces k roots) (D : Space k d)
    (hforest : ∀ g ∈ paging.tables k.mem 3 d lowerHalf, g ∉ paging.forest k.mem 3 roots lowerHalf)
    (hnew : ∀ f ∈ frames k.mem d, f ∉ paging.tables k.mem 3 d lowerHalf ∧ f ∉ paging.forest k.mem 3 roots lowerHalf)
    (hold : ∀ r ∈ roots, ∀ f ∈ frames k.mem r, f ∉ paging.tables k.mem 3 d lowerHalf)
    (hcount : ∀ r ∈ roots, ∀ f ∈ frames k.mem r, f ∈ frames k.mem d → 1 ≤ k.pmm.counts f) : Spaces k (d :: roots) := by
  have hcons : paging.forest k.mem 3 (d :: roots) lowerHalf =
      paging.tables k.mem 3 d lowerHalf ++ paging.forest k.mem 3 roots lowerHalf := flatMap_cons
  constructor
  case trees => exact h.trees.cons D.nodup D.tables hforest
  case plain => exact forall_mem_cons.2 ⟨D.plain, h.plain⟩
  case links => exact forall_mem_cons.2 ⟨D.links, h.links⟩
  case inside => exact forall_mem_cons.2 ⟨fun f hf => (D.pages f hf).1, h.inside⟩
  case used => exact forall_mem_cons.2 ⟨fun f hf => (D.pages f hf).2, h.used⟩
  case apart =>
    rw [hcons]
    refine forall_mem_cons.2 ⟨fun f hf hg => ?_, fun r hr f hf hg => ?_⟩
    · exact (mem_append.1 hg).elim (hnew f hf).1 (hnew f hf).2
    · exact (mem_append.1 hg).elim (hold r hr f hf) (h.apart r hr f hf)
  case own => exact forall_mem_cons.2 ⟨D.own, h.own⟩
  case counted =>
    intro r hr r' hr' hne f hf hf'
    rcases mem_cons.1 hr with rfl | h1
    · rcases mem_cons.1 hr' with rfl | h2
      · exact absurd rfl hne
      · exact hcount r' h2 f hf' hf
    · rcases mem_cons.1 hr' with rfl | h2
      · exact hcount r h1 f hf hf'
      · exact h.counted r h1 r' h2 hne f hf hf'

/-! ### `vmm_create_space` -/

theorem vmmCreateSpace_spec (h : k.pmm.Ok) :
    Meets k.vmmCreateSpace (fun e => e = .panic .vmmOomSpace ∧ k.pmm.freeSet = ∅)
      fun r => ∃ d, r.1 = pageAddr d ∧ SpaceCreated k r.2 d := by
  unfold vmmCreateSpace
  refine meets_alloc h (fun h0 => meets_error ⟨rfl, h0⟩) fun d p hd h0 hT => ?_
  have hd52 := Pmm.lt_of_free hd h.small
  simp only [if_neg h0, pure_eq_ok, Pmm.pageIdx_pageAddr hd52]
  refine meets_ok ⟨d, rfl, ?_⟩
  simpa only using spaceCreated hd hT

/-- a table with nothing present -/
theorem empty_space {m : PhysMem} (h : ∀ i ∈ lowerHalf, m d i = 0) : paging.tables m 3 d lowerHalf = [d] ∧
    paging.leaves m 3 d lowerHalf = [] ∧ paging.links m 3 d lowerHalf = [] := by
  have habs : ∀ i ∈ lowerHalf, paging.present (m d i) = false := fun i hi => by
    rw [h i hi, paging_present, zero_has]
  refine ⟨?_, ?_, ?_⟩
  · exact congrArg (d :: ·) (flatMap_eq_nil_iff.2 fun i hi => gather_absent (habs i hi))
  · exact flatMap_eq_nil_iff.2 fun i hi => gather_absent (habs i hi)
  · exact flatMap_eq_nil_iff.2 fun i hi => gather_absent (habs i hi)

/-- the tables of the other spaces stay as they are -/
theorem Trees.created_agree (T : Trees k roots lowerHalf) (C : SpaceCreated k k' d) {r : ℕ} (hr : r ∈ roots) :
    Agree paging k.mem k'.mem 3 r lowerHalf := by
  refine Agree.of_tables fun g hg => C.other g ?_
  rintro rfl
  exact T.used g (mem_forest.2 ⟨r, hr, hg⟩) C.fresh

theorem Trees.created (T : Trees k roots lowerHalf) (C : SpaceCreated k k' d) : Trees k' (d :: roots) lowerHalf := by
  have hA : ∀ r ∈ roots, Agree paging k.mem k'.mem 3 r lowerHalf := fun r hr => T.created_agree C hr
  have ht := (empty_space C.lower).1
  refine (T.agree hA C.takes.draws).cons ?_ ?_ ?_
  · rw [ht]
    exact nodup_singleton d
  · rw [ht, forall_mem_singleton, C.takes.len]
    exact ⟨(Pmm.mem_freeSet.1 C.fresh).1, C.takes.draws.taken_notMem_free (Finset.mem_singleton_self d)⟩
  · rw [ht, forall_mem_singleton, show paging.forest k'.mem 3 roots lowerHalf =
      paging.forest k.mem 3 roots lowerHalf from flatMap_congr fun r hr => (hA r hr).tables]
    exact fun hc => T.used d hc C.fresh

/-- **A new space maps nothing.** -/
theorem Spaces.created (h : Spaces k roots) (C : SpaceCreated k k' d) : Spaces k' (d :: roots) := by
  have hne : ∀ g, g ∉ k.pmm.freeSet → g ≠ d := fun g hg hc => hg (hc ▸ C.fresh)
  have hA : ∀ r ∈ roots, Agree paging k.mem k'.mem 3 r lowerHalf := fun r hr => h.trees.created_agree C hr
  have hcounts : k'.pmm.counts = k.pmm.counts := by rw [Pmm.counts, C.takes.refs, Pmm.counts]
  have h' : Spaces k' roots := h.agree hA C.takes.draws fun f hf => hcounts ▸ hf
  obtain ⟨ht, hl, hk⟩ := empty_space C.lower
  have hfr : frames k'.mem d = [] := by rw [frames, hl, map_nil]
  have hd : d ∉ k'.pmm.freeSet := C.takes.draws.taken_notMem_free (Finset.mem_singleton_self d)
  have hdforest : d ∉ paging.forest k'.mem 3 roots lowerHalf := fun hc => by
    rw [show paging.forest k'.mem 3 roots lowerHalf = paging.forest k.mem 3 roots lowerHalf from
      flatMap_congr fun r hr => (hA r hr).tables] at hc
    exact h.trees.used d hc C.fresh
  have hold : ∀ r ∈ roots, ∀ f ∈ frames k'.mem r, f ≠ d := fun r hr f hf => by
    rw [frames, (hA r hr).leaves] at hf
    exact hne f (h.used r hr f hf)
  refine h'.cons ⟨?_, ?_, ?_, ?_, ?_, ?_⟩ ?_ ?_ ?_ ?_
  · rw [ht]; exact nodup_singleton d
  · rw [ht, forall_mem_singleton, C.takes.len]
    exact ⟨(Pmm.mem_freeSet.1 C.fresh).1, hd⟩
  · rw [hl]; exact fun p hp => absurd hp not_mem_nil
  · rw [hk]; exact fun p hp => absurd hp not_mem_nil
  · rw [hfr]; exact fun p hp => absurd hp not_mem_nil
  · rw [hfr]; exact nodup_nil
  · rw [ht, forall_mem_singleton]; exact hdforest
  · rw [hfr]; exact fun p hp => absurd hp not_mem_nil
  · rw [ht]; exact fun r hr f hf hc => hold r hr f hf (mem_singleton.1 hc)
  · rw [hfr]; exact fun r hr f _ hc => absurd hc not_mem_nil

/-! ### `vmm_fork_user_space` -/

/-- both spaces map the pages of the old one, when they lie below 4 GiB -/
theorem SpaceForked.frames_eq (F : SpaceForked k k' d S) (hlow : ∀ f ∈ frames k.mem k.pml4, f < 2 ^ 20) {r : ℕ}
    (hr : r = k.pml4 ∨ r = d) : frames k'.mem r = frames k.mem k.pml4 := by
  rw [frames, F.leaves_eq hr, map_map, frames]
  refine map_congr_left fun p hp => ?_
  exact frame_marked fun _ => hlow _ (mem_map.2 ⟨p, hp, rfl⟩)

section ForkedTrees

variable (T : Trees k roots lowerHalf) (hr : k.pml4 ∈ roots) (F : SpaceForked k k' d S)
include T hr F

/-- the tables and pages of other spaces are not touched -/
theorem Trees.forked_other {r : ℕ} (hr' : r ∈ roots) (hne : r ≠ k.pml4) : Agree paging k.mem k'.mem 3 r lowerHalf := by
  refine Agree.of_tables fun g hg => F.outside g (F.draws.notMem (T.used g (mem_forest.2 ⟨r, hr', hg⟩))) ?_
  exact fun hc => ne_of_forest T.nodup hr' hr hne hg hc rfl

theorem Trees.forked_tables {r : ℕ} (hr' : r ∈ roots) :
    paging.tables k'.mem 3 r lowerHalf = paging.tables k.mem 3 r lowerHalf := by
  by_cases hne : r = k.pml4
  · subst hne
    exact congrArg (k.pml4 :: ·) (flatMap_congr fun i hi => (F.old i hi).tablesAt_eq)
  · exact (T.forked_other hr F hr' hne).tables

theorem Trees.forked_forest : paging.forest k'.mem 3 roots lowerHalf = paging.forest k.mem 3 roots lowerHalf :=
  flatMap_congr fun _ hr' => T.forked_tables hr F hr'

theorem Trees.forked_old : Trees k' roots lowerHalf := by
  refine ⟨F.draws.ok, F.draws.len ▸ T.phys, ?_, ?_, ?_⟩
  · rw [T.forked_forest hr F]
    exact T.nodup
  · intro g hg
    rw [T.forked_forest hr F] at hg
    rw [F.draws.len]
    exact T.inside g hg
  · intro g hg
    rw [T.forked_forest hr F] at hg
    exact F.draws.notMem_free (T.used g hg)

/-- the new tables were free, and are in use -/
theorem Trees.forked_new : ∀ g ∈ paging.tables k'.mem 3 d lowerHalf,
    (g < k'.pmm.bitmapLen ∧ g ∉ k'.pmm.freeSet) ∧ g ∉ paging.forest k'.mem 3 roots lowerHalf := by
  intro g hg
  have hfree := F.draws.sub (F.fresh g hg)
  refine ⟨⟨F.draws.len ▸ (Pmm.mem_freeSet.1 hfree).1, F.draws.taken_notMem_free (F.fresh g hg)⟩, fun hc => ?_⟩
  rw [T.forked_forest hr F] at hc
  exact T.used g hc hfree

theorem Trees.forked : Trees k' (d :: roots) lowerHalf :=
  (T.forked_old hr F).cons F.nodup (fun g hg => (T.forked_new hr F g hg).1) fun g hg => (T.forked_new hr F g hg).2

end ForkedTrees

section Forked

variable (h : Spaces k roots) (hr : k.pml4 ∈ roots) (F : SpaceForked k k' d S)
include h hr F

theorem Spaces.forked_links {r : ℕ} (hr' : r ∈ roots) :
    paging.links k'.mem 3 r lowerHalf = paging.links k.mem 3 r lowerHalf := by
  by_cases hne : r = k.pml4
  · subst hne
    exact flatMap_congr fun i hi => (F.old i hi).linksAt_eq
  · exact (h.trees.forked_other hr F hr' hne).links

theorem Spaces.forked_counts {f : ℕ} (hf : f ∈ frames k.mem k.pml4) : 1 ≤ k'.pmm.counts f := by
  rw [F.counts]
  obtain ⟨p, hp, rfl⟩ := mem_map.1 hf
  refine Pmm.one_le_foldl_bump _ (mem_filterMap.2 ⟨p, hp, ?_⟩)
  rw [if_pos ⟨(h.plain _ hr p hp).2, h.inside _ hr _ hf⟩]

variable (hlow : ∀ f ∈ frames k.mem k.pml4, f < 2 ^ 20)
include hlow

theorem Spaces.forked_old : Spaces k' roots := by
  refine h.reframe (h.trees.forked_old hr F) ?_ ?_ ?_ ?_ F.draws.len ?_ ?_
  · intro g hg
    rw [h.trees.forked_forest hr F] at hg
    exact .inl hg
  · intro r hr' p hp
    by_cases hne : r = k.pml4
    · rw [F.leaves_eq (.inl hne), mem_map] at hp
      obtain ⟨q, hq, rfl⟩ := hp
      obtain ⟨h0, hu⟩ := h.plain _ hr q hq
      exact ⟨h0, (user_marked q.2).trans hu⟩
    · rw [(h.trees.forked_other hr F hr' hne).leaves] at hp
      exact h.plain r hr' p hp
  · intro r hr' e he
    rw [h.forked_links hr F hr'] at he
    exact h.links r hr' e he
  · intro r hr'
    by_cases hne : r = k.pml4
    · rw [F.frames_eq hlow (.inl hne), hne]
    · rw [frames, (h.trees.forked_other hr F hr' hne).leaves, frames]
  · rw [F.draws.free]
    exact Finset.sdiff_subset
  · intro f hf
    rw [F.counts]
    exact hf.trans (Pmm.le_foldl_bump _ _ f)

/-- **Fork adds a space** that maps the pages of the parent, when they lie below 4 GiB. -/
theorem Spaces.forked : Spaces k' (d :: roots) := by
  have h' := h.forked_old hr F hlow
  have hfr : frames k'.mem d = frames k.mem k.pml4 := F.frames_eq hlow (.inr rfl)
  have hforest := h.trees.forked_forest hr F
  -- the new tables were free, everything the spaces use was not
  have hfree : ∀ g ∈ paging.tables k'.mem 3 d lowerHalf, g ∈ k.pmm.freeSet := fun g hg => F.draws.sub (F.fresh g hg)
  have hold : ∀ r ∈ roots, ∀ f ∈ frames k'.mem r, f ∉ k.pmm.freeSet := by
    intro r hr' f hf
    by_cases hne : r = k.pml4
    · rw [F.frames_eq hlow (.inl hne)] at hf
      exact h.used _ hr f hf
    · rw [frames, (h.trees.forked_other hr F hr' hne).leaves] at hf
      exact h.used r hr' f hf
  refine h'.cons ⟨F.nodup, fun g hg => (h.trees.forked_new hr F g hg).1, ?_, ?_, ?_, ?_⟩
    (fun g hg => (h.trees.forked_new hr F g hg).2) ?_ ?_ ?_
  · intro p hp
    rw [F.leaves_eq (.inr rfl), mem_map] at hp
    obtain ⟨q, hq, rfl⟩ := hp
    obtain ⟨h0, hu⟩ := h.plain _ hr q hq
    exact ⟨h0, (user_marked q.2).trans hu⟩
  · intro e he
    obtain ⟨i, hi, he⟩ := mem_flatMap.1 he
    obtain ⟨e', he', hs⟩ := (F.new i hi).exists_link he
    have ht := h.links _ hr e' (mem_flatMap.2 ⟨i, hi, he'⟩)
    exact ⟨(hs.has (by decide)).trans ht.1, (hs.has (by decide)).trans ht.2.1, (hs.has (by decide)).trans ht.2.2⟩
  · intro f hf
    rw [hfr] at hf
    rw [F.draws.len]
    exact ⟨h.inside _ hr f hf, F.draws.notMem_free (h.used _ hr f hf)⟩
  · rw [hfr]
    exact h.own _ hr
  · intro f hf
    rw [hfr] at hf
    refine ⟨fun hc => h.used _ hr f hf (hfree f hc), fun hc => ?_⟩
    rw [hforest] at hc
    exact h.apart _ hr f hf hc
  · intro r hr' f hf hc
    exact hold r hr' f hf (hfree f hc)
  · intro r hr' f _ hf
    rw [hfr] at hf
    exact h.forked_counts hr F hf

/-- **After a fork parent and child read what the parent read**, and everyone else what they read. -/
theorem Spaces.forked_view {r : ℕ} (va : UserAddr) :
    (r = k.pml4 ∨ r = d → userByte k'.mem r va.1 = userByte k.mem k.pml4 va.1) ∧
      (r ∈ roots → r ≠ k.pml4 → userByte k'.mem r va.1 = userByte k.mem r va.1) := by
  have h' := h.forked hr F hlow
  have hpage : ∀ r ∈ roots, ∀ f ∈ frames k.mem r, k'.mem f = k.mem f := fun r hr' f hf =>
    F.outside f (F.draws.notMem (h.used r hr' f hf)) fun hc => h.apart r hr' f hf (mem_forest.2 ⟨_, hr, hc⟩)
  refine ⟨fun hrd => ?_, fun hr' hne => ?_⟩
  · have hmem : r ∈ d :: roots := by
      rcases hrd with rfl | rfl
      · exact mem_cons_of_mem _ hr
      · exact mem_cons_self
    rw [h'.view hmem va, h.view hr va, F.walk_eq hrd va.lower, Option.map_map]
    cases hw : paging.walk k.mem 3 k.pml4 (idx va.1) with
    | none => rfl
    | some p =>
      have hf := frame_mem_frames va.lower hw
      have hmark := frame_marked (e := p.2) fun _ => hlow _ hf
      simp only [Option.map_some, Function.comp_apply, Prod.map_snd, hmark, hpage _ hr _ hf]
  · exact h.view_agree (h.forked_old hr F hlow) hr' (h.trees.forked_other hr F hr' hne) (hpage r hr') va

end Forked

end More

end Uix.Kern
