/-
What a fork does to address translation. `fork_table` clears the write bit with `e & ~VMM_WRITE`, and `VMM_WRITE` is an
`unsigned int`: the mask is 0x00000000FFFFFFFD, so the bits 32 .. 63 of every user leaf are lost in both spaces.

- `fork_keeps_translation_iff`: the two spaces translate as the parent did exactly when every user page lies below 4
  GiB.
- `fork_moves_page`: a page at 4 GiB becomes page 0, in the child and in the parent.
-/
import Uix.Memory.VmmFork

namespace Uix.Kern

open Machine Radix Radix.Format List
open Pmm (pageIdx pageAddr)

/-- the walk at `va` from a root: the level of its leaf and the frame the leaf names -/
def walkFrame (m : PhysMem) (root : ℕ) (va : U64) : Option (ℕ × ℕ) :=
  (paging.walk m 3 root (idx va)).map fun p => (p.1, frame p.2)

/-- what a fork from `k` to `k'` with the new root `d` should keep -/
structure ForkKeeps (k k' : Kern) (d : ℕ) : Prop where
  parent : ∀ va, walkFrame k'.mem k.pml4 va = walkFrame k.mem k.pml4 va
  child : ∀ va, walkFrame k'.mem d va = walkFrame k.mem k.pml4 va
  /-- user leaves of both spaces are read-only and marked -/
  cow : ∀ r, r = k.pml4 ∨ r = d → ∀ p ∈ paging.leaves k'.mem 3 r lowerHalf, has p.2 vmmUser = true →
    has p.2 (vmmWrite.setWidth 64) = false ∧ has p.2 cowMark = true
  kernel : ∀ i ∈ upperHalf, k'.mem d i = k'.mem k.pml4 i

/-- every walk of a table is the walk of an address -/
theorem exists_idx (x : ℕ → Fin 512) : ∃ va, ∀ l ≤ 3, idx va l = x l := by
  set n := (x 0).val * 2 ^ 12 + (x 1).val * 2 ^ 21 + (x 2).val * 2 ^ 30 + (x 3).val * 2 ^ 39 with hn
  refine ⟨BitVec.ofNat 64 n, fun l hl => ?_⟩
  have h0 := (x 0).isLt
  have h1 := (x 1).isLt
  have h2 := (x 2).isLt
  have h3 := (x 3).isLt
  have hlt : n < 2 ^ 64 := by omega
  rw [idx, Fin.ext_iff, slot_val, BitVec.toNat_ofNat, Nat.mod_eq_of_lt hlt]
  interval_cases l <;> norm_num <;> omega

theorem user_marked (e : U64) : has (marked e) vmmUser = has e vmmUser := by
  unfold marked
  split_ifs
  · exact has_cow e (by decide) (by decide)
  · rfl

theorem frame_marked {e : U64} (h : has e vmmUser = true → frame e < 2 ^ 20) : frame (marked e) = frame e := by
  unfold marked
  split_ifs with hu
  · rw [frame_cow, Nat.mod_eq_of_lt (h hu)]
  · rfl

section Kept

variable {k k' : Kern} {d : ℕ} {S : Finset ℕ}

/-- the tree of the whole space gives what fork needs of its user half -/
theorem Trees.spacePre (T : Trees k [k.pml4] (finRange 512))
    (hplain : ∀ p ∈ paging.leaves k.mem 3 k.pml4 lowerHalf, p.1 = 0) : SpacePre k := by
  have hsub : (paging.tables k.mem 3 k.pml4 lowerHalf).Sublist (paging.forest k.mem 3 [k.pml4] (finRange 512)) := by
    rw [forest, flatMap_singleton]
    exact (filter_sublist.flatMap _).cons_cons _
  exact ⟨T.pmm, T.phys, T.nodup.sublist hsub, fun g hg => T.used g (hsub.subset hg), hplain⟩

/-- the kernel half keeps its walks, in both spaces -/
theorem SpaceForked.upper_walk (T : Trees k [k.pml4] (finRange 512)) (F : SpaceForked k k' d S)
    {y : ℕ → Fin 512} (hy : y 3 ∉ lowerHalf) :
    paging.walk k'.mem 3 k.pml4 y = paging.walk k.mem 3 k.pml4 y ∧
      paging.walk k'.mem 3 d y = paging.walk k.mem 3 k.pml4 y := by
  have htree : (paging.tables k.mem 3 k.pml4 (finRange 512)).Nodup :=
    tree_of_forest T.nodup (mem_singleton_self _)
  have hbelow : ∀ g ∈ paging.tablesAt k.mem 3 k.pml4 (y 3), k'.mem g = k.mem g := by
    intro g hg
    have hin : g ∈ paging.forest k.mem 3 [k.pml4] (finRange 512) :=
      mem_forest.2 ⟨_, mem_singleton_self _,
        mem_cons_of_mem _ (mem_flatMap.2 ⟨_, mem_finRange _, hg⟩)⟩
    apply F.outside g (F.draws.notMem (T.used g hin))
    intro hc
    rcases mem_cons.1 hc with rfl | hc
    · exact root_ne_of_tables htree (mem_finRange _) hg rfl
    · obtain ⟨i, hi, hc⟩ := mem_flatMap.1 hc
      have hne : y 3 ≠ i := fun h => hy (h ▸ hi)
      exact ne_of_tables htree (mem_finRange _) (mem_finRange _) hne hg hc rfl
  exact ⟨walk_congr (F.root _ hy) hbelow, walk_congr (F.upper _ hy) hbelow⟩

/-- the leaves of both user halves are the parent's, marked -/
theorem SpaceForked.leaves_eq (F : SpaceForked k k' d S) {r : ℕ} (hr : r = k.pml4 ∨ r = d) :
    paging.leaves k'.mem 3 r lowerHalf = (paging.leaves k.mem 3 k.pml4 lowerHalf).map (Prod.map id marked) := by
  rw [Format.leaves, Format.leaves, map_flatMap]
  refine flatMap_congr fun i hi => ?_
  rcases hr with rfl | rfl
  · exact (F.old i hi).leavesAt
  · exact (F.new i hi).leavesAt

theorem SpaceForked.walk_eq (F : SpaceForked k k' d S) {r : ℕ} (hr : r = k.pml4 ∨ r = d) {y : ℕ → Fin 512}
    (hy : y 3 ∈ lowerHalf) : paging.walk k'.mem 3 r y = (paging.walk k.mem 3 k.pml4 y).map (Prod.map id marked) := by
  rcases hr with rfl | rfl
  · exact (F.old _ hy).walk
  · exact (F.new _ hy).walk

/-- with all user pages below 4 GiB a fork keeps everything -/
theorem SpaceForked.keeps (T : Trees k [k.pml4] (finRange 512)) (F : SpaceForked k k' d S)
    (hlow : ∀ p ∈ paging.leaves k.mem 3 k.pml4 lowerHalf, has p.2 vmmUser = true → frame p.2 < 2 ^ 20) :
    ForkKeeps k k' d := by
  have hwalk : ∀ r, r = k.pml4 ∨ r = d → ∀ va, walkFrame k'.mem r va = walkFrame k.mem k.pml4 va := by
    intro r hr va
    unfold walkFrame
    by_cases hy : idx va 3 ∈ lowerHalf
    · rw [F.walk_eq hr hy, Option.map_map]
      cases hw : paging.walk k.mem 3 k.pml4 (idx va) with
      | none => rfl
      | some p =>
        have := frame_marked (hlow p (mem_leaves.2 ⟨_, hy, hw⟩))
        simp [this]
    · rcases hr with rfl | rfl
      · rw [(F.upper_walk T hy).1]
      · rw [(F.upper_walk T hy).2]
  refine ⟨hwalk _ (.inl rfl), hwalk _ (.inr rfl), ?_, ?_⟩
  · intro r hr p hp hu
    rw [F.leaves_eq hr, mem_map] at hp
    obtain ⟨q, hq, rfl⟩ := hp
    have hu' : has q.2 vmmUser = true := by rw [← user_marked]; exact hu
    simp only [Prod.map_snd, marked, if_pos hu']
    exact ⟨write_cow _, mark_cow _⟩
  · intro i hi
    rw [F.upper i (mem_upperHalf_iff.1 hi), F.root i (mem_upperHalf_iff.1 hi)]

end Kept

/-- **Fork keeps address translation exactly when every user page lies below 4 GiB.** For every space that is a tree of
used pages with 4 KiB leaves in its user half: whenever the fork returns, parent and child walk as the parent did before
with all user leaves copy-on-write and the kernel half shared, if and only if no user leaf has a frame from 2^20 on. It
does return when the reference counts exist and there is a free page for each table. -/
theorem fork_keeps_translation_iff (k : Kern) (T : Trees k [k.pml4] (List.finRange 512))
    (hplain : ∀ p ∈ paging.leaves k.mem 3 k.pml4 lowerHalf, p.1 = 0) :
    (∀ pa k', k.vmmForkUserSpace = .ok (pa, k') → (ForkKeeps k k' (pageIdx pa) ↔
      ∀ p ∈ paging.leaves k.mem 3 k.pml4 lowerHalf, has p.2 vmmUser = true → frame p.2 < 2 ^ 20)) ∧
    (k.pmm.refcounts ≠ none → (paging.tables k.mem 3 k.pml4 lowerHalf).length ≤ k.pmm.freeSet.card →
      ∃ r, k.vmmForkUserSpace = .ok r) := by
  have hspec := vmmFork_spec (T.spacePre hplain)
  refine ⟨fun pa k' hrun => ?_, fun hr hcard => ?_⟩
  · obtain ⟨d, S, rfl, hd, F⟩ := hspec.of_eq hrun
    have hd52 : d < 2 ^ 52 := lt_of_lt_of_le (Pmm.mem_freeSet.1 hd).1 T.pmm.small
    rw [Pmm.pageIdx_pageAddr hd52]
    refine ⟨fun h p hp hu => ?_, F.keeps T⟩
    -- the walk to a leaf finds the frame that fork left of it
    obtain ⟨x, hx, hw⟩ := mem_leaves.1 hp
    obtain ⟨va, hva⟩ := exists_idx x
    have hkept := h.child va
    unfold walkFrame at hkept
    rw [walk_index hva, walk_index hva, F.walk_eq (.inr rfl) hx, hw] at hkept
    simp only [Option.map_some, Prod.map_fst, Prod.map_snd, marked, if_pos hu, Option.some.injEq, Prod.mk.injEq,
      frame_cow] at hkept
    have := Nat.mod_lt (frame p.2) (show 0 < 2 ^ 20 by decide)
    omega
  · obtain ⟨r, hrun, -⟩ := hspec.exists_ok fun e he => by
      rcases he.2 with h | h
      · exact hr h
      · omega
    exact ⟨r, hrun⟩

/-! ## A space with one page -/

/-- tables in the pages 1 .. 4, with the entry `e` for the address 0x400000 -/
def single (e : U64) : PhysMem := fun f i =>
  if f = 1 ∧ i = 0 then pageAddr 2 ||| tableFlags else
  if f = 2 ∧ i = 0 then pageAddr 3 ||| tableFlags else
  if f = 3 ∧ i = 2 then pageAddr 4 ||| tableFlags else
  if f = 4 ∧ i = 0 then e else 0

theorem single_gather {β : Type} {leaf : ℕ → U64 → List β} {node : U64 → List β} {e : U64} {is : List (Fin 512)}
    (h0 : 0 ∈ is) (hn : is.Nodup) : is.flatMap (paging.gather leaf node (single e) 3 1) =
      node (pageAddr 2 ||| tableFlags) ++ (node (pageAddr 3 ||| tableFlags) ++ (node (pageAddr 4 ||| tableFlags) ++
        if has e vmmPresent then leaf 0 e else [])) := by
  have hlink : ∀ {l t : ℕ}, t < 2 ^ 40 → paging.link l (pageAddr t ||| tableFlags) = true := fun ht =>
    paging_link (present_table _) (ps_table ht)
  have h1 : single e 1 0 = pageAddr 2 ||| tableFlags := rfl
  have h2 : single e 2 0 = pageAddr 3 ||| tableFlags := rfl
  have h3 : single e 3 2 = pageAddr 4 ||| tableFlags := rfl
  have h4 : single e 4 0 = e := rfl
  have habs : ∀ {f i}, single e f i = 0 → paging.present (single e f i) = false := fun h => by
    rw [paging_present, h, zero_has]
  have hall := nodup_finRange 512
  rw [gather_single h0 hn fun j hj => habs (by simp [single, hj]), gather_link (h1 ▸ hlink (by decide)), h1,
    paging_next, frame_table (by decide), gather_single (mem_finRange 0) hall fun j hj => habs (by simp [single, hj]),
    gather_link (h2 ▸ hlink (by decide)), h2, paging_next, frame_table (by decide),
    gather_single (mem_finRange 2) hall fun j hj => habs (by simp [single, hj]),
    gather_link (h3 ▸ hlink (by decide)), h3, paging_next, frame_table (by decide),
    gather_single (mem_finRange 0) hall fun j hj => habs (by simp [single, hj]), Format.gather, h4, paging_present]

theorem single_tables {e : U64} {is : List (Fin 512)} (h0 : 0 ∈ is) (hn : is.Nodup) :
    paging.tables (single e) 3 1 is = [1, 2, 3, 4] := by
  rw [Format.tables, Format.tablesAt, single_gather h0 hn, paging_next, paging_next, paging_next,
    frame_table (by decide), frame_table (by decide), frame_table (by decide), ite_self]
  rfl

theorem single_leaves {e : U64} {is : List (Fin 512)} (h0 : 0 ∈ is) (hn : is.Nodup) (hp : has e vmmPresent = true) :
    paging.leaves (single e) 3 1 is = [(0, e)] := by
  rw [Format.leaves, Format.leavesAt, single_gather h0 hn, if_pos hp]
  rfl

/-- the space in a memory of 64 pages whose first six are in use -/
def onePage (e : U64) : Kern := ⟨single e, Pmm.fresh 64 6 (some fun _ => 0), 1, pageAddr 1, pageAddr 1⟩

theorem onePage_forest (e : U64) {is : List (Fin 512)} (h0 : 0 ∈ is) (hn : is.Nodup) : Trees (onePage e) [1] is := by
  have hforest : paging.forest (onePage e).mem 3 [1] is = [1, 2, 3, 4] := by
    rw [forest, flatMap_singleton]
    exact single_tables h0 hn
  refine ⟨Pmm.fresh_ok _ (by decide) (by decide) (by decide) (by decide), show 64 ≤ 2 ^ 40 by decide, ?_, ?_, ?_⟩
  · rw [hforest]; decide
  · rw [hforest, show (onePage e).pmm.bitmapLen = 64 from rfl]; decide
  · rw [hforest, show (onePage e).pmm.freeSet = Finset.Ico 6 64 from Pmm.freeSet_fresh _ _ (by decide)]; decide

theorem onePage_trees (e : U64) : Trees (onePage e) [1] (finRange 512) :=
  onePage_forest e (mem_finRange 0) (nodup_finRange 512)

theorem zero_mem_lowerHalf : (0 : Fin 512) ∈ lowerHalf := mem_lowerHalf.2 (by decide)

theorem onePage_lower (e : U64) : Trees (onePage e) [1] lowerHalf := onePage_forest e zero_mem_lowerHalf lowerHalf_nodup

theorem onePage_leaves {e : U64} (hp : has e vmmPresent = true) :
    paging.leaves (onePage e).mem 3 1 lowerHalf = [(0, e)] := single_leaves zero_mem_lowerHalf lowerHalf_nodup hp

theorem onePage_room (e : U64) :
    (paging.tables (onePage e).mem 3 1 lowerHalf).length ≤ (onePage e).pmm.freeSet.card := by
  rw [show (onePage e).mem = single e from rfl, single_tables zero_mem_lowerHalf lowerHalf_nodup,
    show (onePage e).pmm.freeSet = Finset.Ico 6 64 from Pmm.freeSet_fresh _ _ (by decide)]
  decide

/-- the way to the entry of the page -/
theorem onePage_at (e : U64) : At paging (onePage e).mem (idx 0x400000#64) 3 1 0 4 := by
  have hdown : ∀ {l f t : ℕ}, t < 2 ^ 40 → (onePage e).mem f (idx 0x400000#64 (l + 1)) = pageAddr t ||| tableFlags →
      At paging (onePage e).mem (idx 0x400000#64) l t 0 4 →
      At paging (onePage e).mem (idx 0x400000#64) (l + 1) f 0 4 := by
    intro l f t ht hf hat
    refine .down ?_ ?_
    · rw [hf]
      exact paging_link (present_table _) (ps_table ht)
    · rwa [hf, paging_next, frame_table ht]
  exact hdown (t := 2) (by decide) rfl (hdown (t := 3) (by decide) rfl (hdown (t := 4) (by decide) rfl (.here _ _)))

/-- the walk to the page -/
theorem onePage_walk {e : U64} (hp : has e vmmPresent = true) :
    paging.walk (onePage e).mem 3 1 (idx 0x400000#64) = some (0, e) := by
  rw [(onePage_at e).walk]
  exact walk_zero (show paging.present ((onePage e).mem 4 (idx 0x400000#64 0)) = true from hp)

/-- **A page at 4 GiB moves to page 0**, in the child and in the parent. -/
theorem fork_moves_page : ∃ k pa k', Trees k [k.pml4] (List.finRange 512) ∧
    (∀ p ∈ paging.leaves k.mem 3 k.pml4 lowerHalf, p.1 = 0) ∧ k.vmmForkUserSpace = .ok (pa, k') ∧
    walkFrame k.mem k.pml4 0x400000#64 = some (0, 2 ^ 20) ∧
    walkFrame k'.mem (pageIdx pa) 0x400000#64 = some (0, 0) ∧ walkFrame k'.mem k.pml4 0x400000#64 = some (0, 0) := by
  set e : U64 := 0x100000007#64
  have hp : has e vmmPresent = true := by decide
  have hplain : ∀ p ∈ paging.leaves (onePage e).mem 3 1 lowerHalf, p.1 = 0 := by
    rw [onePage_leaves hp]
    decide
  obtain ⟨⟨pa, k'⟩, hrun, d, S, rfl, hd, F⟩ :=
    (vmmFork_spec ((onePage_trees e).spacePre hplain)).exists_ok fun st hst => by
      rcases hst.2 with h | h
      · exact absurd h (by simp [onePage, Pmm.fresh])
      · exact absurd (onePage_room e) (not_le.2 h)
  have hd52 : d < 2 ^ 52 := lt_of_lt_of_le (Pmm.mem_freeSet.1 hd).1 (onePage_trees e).pmm.small
  have hwalk := onePage_walk hp
  have hlow : idx 0x400000#64 3 ∈ lowerHalf := mem_lowerHalf.2 (by decide)
  refine ⟨onePage e, pageAddr d, k', onePage_trees e, hplain, hrun, ?_, ?_, ?_⟩
  · rw [walkFrame, show (onePage e).pml4 = 1 from rfl, hwalk]
    decide
  · rw [walkFrame, Pmm.pageIdx_pageAddr hd52, F.walk_eq (.inr rfl) hlow, show (onePage e).pml4 = 1 from rfl, hwalk]
    decide
  · rw [walkFrame, F.walk_eq (.inl rfl) hlow, show (onePage e).pml4 = 1 from rfl, hwalk]
    decide

theorem fork_keeps_page : ∃ pa k', (onePage 0x5007#64).vmmForkUserSpace = .ok (pa, k') ∧
    ForkKeeps (onePage 0x5007#64) k' (pageIdx pa) := by
  have hleaf := onePage_leaves (e := 0x5007#64) (by decide)
  have h := fork_keeps_translation_iff (onePage 0x5007#64) (onePage_trees _) (by
    rw [show (onePage 0x5007#64).pml4 = 1 from rfl, hleaf]
    decide)
  obtain ⟨⟨pa, k'⟩, hrun⟩ := h.2 (by simp [onePage, Pmm.fresh]) (onePage_room _)
  refine ⟨pa, k', hrun, (h.1 pa k' hrun).2 ?_⟩
  rw [show (onePage 0x5007#64).pml4 = 1 from rfl, hleaf]
  decide

end Uix.Kern
