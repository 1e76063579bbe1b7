/-
`clone_table`: the tables that the boot loader left are copied to pages of the PMM, level by level. Large pages and the
entries of page tables are shared, a pointer to a table becomes a pointer to its copy with the low 12 bits of the old
one.

The tables copied need not be a tree. That they hold no free page is what keeps them apart from the copy.

- `Cloned`: what copying some entries of a table did; `Cloned.append` adds one entry.
- `cloneTable_clones`, `cloneTop_spec`: tables of levels 0 .. 2, and the PML4.
- `clone_walks_alike`: the copy of the whole hierarchy translates as the original does.
-/
import Uix.Memory.Mmu
import Uix.Memory.ForkTranslation

namespace Uix

open Machine Radix Radix.Format List
open Pmm (pageIdx pageAddr Takes)

/-! ## What a walk grants -/

/-- a walk is determined by the entries it reads -/
theorem mmuWalk_of_trail {m m' : PhysMem} {l f f' : ℕ} {x : ℕ → Fin 512}
    (h : paging.trail m' l f' x = paging.trail m l f x) : mmuWalk m' l f' x = mmuWalk m l f x := by
  induction l generalizing f f' with
  | zero => simp only [mmuWalk, (cons.inj h).1]
  | succ l ih =>
    obtain ⟨he, ht⟩ := cons.inj h
    rw [he] at ht
    simp only [mmuWalk, he]
    split_ifs with hp hs
    · rfl
    · rfl
    · have hl := link_of_walk hp hs
      rw [if_pos hl, if_pos hl] at ht
      rw [← paging_next, ih ht]

theorem mmuWalk_congr {m m' : PhysMem} {l f f' : ℕ} {x : ℕ → Fin 512} (he : m' f' (x l) = m f (x l))
    (hs : ∀ g ∈ paging.tablesAt m l f (x l), m' g = m g) : mmuWalk m' l f' x = mmuWalk m l f x :=
  mmuWalk_of_trail (trail_congr he hs)

/-- the leaf, and the write and user permissions of the way to it -/
def Leaf.grant (t : Leaf) : ℕ × U64 × Bool × Bool := (t.level, t.entry, t.write, t.user)

/-- what an entry on the way leaves of a grant -/
def passes (e : U64) (g : ℕ × U64 × Bool × Bool) : ℕ × U64 × Bool × Bool :=
  (g.1, g.2.1, g.2.2.1 && has e writeBit, g.2.2.2 && has e vmmUser)

theorem grant_through (o : Option Leaf) (e : U64) :
    (o.map (Leaf.through e)).map Leaf.grant = (o.map Leaf.grant).map (passes e) := by
  cases o <;> rfl

theorem SameFlags.passes {e e' : U64} (h : SameFlags e e') : passes e' = passes e := by
  funext g
  simp only [Uix.passes, h.has (f := writeBit) (by decide), h.has (f := vmmUser) (by decide)]

namespace Kern

/-! ## Before and after -/

/-- table `src` can be copied to page `dst` -/
structure ClonePre (l src dst : ℕ) (k : Kern) : Prop where
  pmm : k.pmm.Ok
  phys : k.pmm.bitmapLen ≤ 2 ^ 40
  used : ∀ g ∈ paging.tables k.mem l src (List.finRange 512), g ∉ k.pmm.freeSet
  dstUsed : dst ∉ k.pmm.freeSet
  dstOut : dst ∉ paging.tables k.mem l src (List.finRange 512)

/-- the entries `is` of table `src` were copied to `dst`, with the pages `S` for the tables below -/
structure Cloned (l src dst : ℕ) (is : List (Fin 512)) (k k' : Kern) (S : Finset ℕ) : Prop
    extends Hung l dst is k'.mem S where
  takes : Takes k.pmm S k'.pmm
  regs : SameRegs k k'
  outside : ∀ f j, f ∉ S → ¬ (f = dst ∧ j ∈ is) → k'.mem f j = k.mem f j
  walk : ∀ x : ℕ → Fin 512, x l ∈ is →
    (mmuWalk k'.mem l dst x).map Leaf.grant = (mmuWalk k.mem l src x).map Leaf.grant
  card : S.card = (is.flatMap (paging.tablesAt k.mem l src)).length

/-- the only reason not to return: too few pages -/
def CloneStop (k : Kern) (n : ℕ) (st : Stop) : Prop := st = .panic .vmmOomClone ∧ k.pmm.freeSet.card < n

section Append

variable {l src dst : ℕ} {is pre post : List (Fin 512)} {i : Fin 512} {k₀ k k' : Kern} {S S' : Finset ℕ}

theorem Cloned.refl (h : k.pmm.Ok) : Cloned l src dst [] k k ∅ where
  takes := .refl h
  regs := ⟨rfl, rfl, rfl⟩
  outside _ _ _ _ := rfl
  walk _ hx := absurd hx not_mem_nil
  toHung := .of_nil fun _ hi => absurd hi not_mem_nil
  card := rfl

/-- the tables copied from stay as they are -/
theorem Cloned.source (P : ClonePre l src dst k₀) (F : Cloned l src dst is k₀ k S) :
    ∀ g ∈ paging.tables k₀.mem l src (finRange 512), k.mem g = k₀.mem g := by
  intro g hg
  funext j
  apply F.outside g j
  · exact F.takes.draws.notMem (P.used g hg)
  · rintro ⟨rfl, -⟩
    exact P.dstOut hg

theorem Cloned.next (P : ClonePre l src dst k₀) (F : Cloned l src dst is k₀ k S) : ClonePre l src dst k := by
  have hA : Agree paging k₀.mem k.mem l src (finRange 512) := .of_tables (F.source P)
  refine ⟨F.takes.ok, F.takes.len ▸ P.phys, ?_, F.takes.draws.notMem_free P.dstUsed, ?_⟩
  · rw [hA.tables]
    exact fun g hg => F.takes.draws.notMem_free (P.used g hg)
  · rw [hA.tables]
    exact P.dstOut

/-- **One entry more.** -/
theorem Cloned.append (P : ClonePre l src dst k₀) (F : Cloned l src dst pre k₀ k S) (hi : i ∉ pre)
    (G : Cloned l src dst [i] k k' S') : Cloned l src dst (pre ++ [i]) k₀ k' (S ∪ S') := by
  have hA : Agree paging k₀.mem k.mem l src (finRange 512) := .of_tables (F.source P)
  have hdisj := F.takes.draws.disjoint G.takes.draws
  -- what the last step leaves of the copies made before
  have hdst : ∀ j ∈ pre, k'.mem dst j = k.mem dst j := by
    intro j hj
    apply G.outside dst j
    · exact G.takes.draws.notMem (F.takes.draws.notMem_free P.dstUsed)
    · rintro ⟨-, hc⟩
      exact hi (mem_singleton.1 hc ▸ hj)
  have hnew : ∀ j ∈ pre, ∀ g ∈ paging.tablesAt k.mem l dst j, k'.mem g = k.mem g := by
    intro j hj g hg
    have hgS := F.fresh j hj g hg
    funext j'
    apply G.outside g j' (Finset.disjoint_left.1 hdisj hgS)
    rintro ⟨rfl, -⟩
    exact P.dstUsed (F.takes.sub hgS)
  constructor
  case toHung => exact F.toHung.append G.toHung hdisj hdst hnew
  case takes => exact F.takes.trans G.takes
  case regs => exact F.regs.trans G.regs
  case outside =>
    intro f j hf hne
    rw [Finset.mem_union, not_or] at hf
    rw [G.outside f j hf.2 fun hc => hne ⟨hc.1, mem_append_right _ hc.2⟩]
    exact F.outside f j hf.1 fun hc => hne ⟨hc.1, mem_append_left _ hc.2⟩
  case walk =>
    intro x hx
    rcases mem_append.1 hx with hx | hx
    · rw [mmuWalk_congr (hdst _ hx) (hnew _ hx)]
      exact F.walk x hx
    · rw [G.walk x hx]
      congr 1
      have hsrc := F.source P
      refine mmuWalk_congr (congrFun (hsrc _ mem_cons_self) _) fun g hg => hsrc g ?_
      exact mem_cons_of_mem _ (mem_flatMap.2 ⟨_, mem_finRange _, hg⟩)
  case card =>
    have hG := G.card
    rw [flatMap_singleton, hA.tablesAt (mem_finRange i)] at hG
    rw [Finset.card_union_of_disjoint hdisj, F.card, hG, flatMap_append, length_append, flatMap_singleton]

end Append

/-! ## One entry -/

/-- table `src` was copied to page `d`, with the pages `S` for it and the tables below -/
structure TableCloned (l src : ℕ) (k k' : Kern) (d : ℕ) (S : Finset ℕ) : Prop
    extends Planted l d (List.finRange 512) k'.mem S where
  takes : Takes k.pmm S k'.pmm
  regs : SameRegs k k'
  outside : ∀ f, f ∉ S → k'.mem f = k.mem f
  walk : ∀ x : ℕ → Fin 512, (mmuWalk k'.mem l d x).map Leaf.grant = (mmuWalk k.mem l src x).map Leaf.grant
  card : S.card = (paging.tables k.mem l src (List.finRange 512)).length

/-- `clone` copies tables of level `l` -/
def Clones (l : ℕ) (clone : U64 → Kern → Except Stop (PAddr × Kern)) : Prop :=
  ∀ e k, k.pmm.Ok → k.pmm.bitmapLen ≤ 2 ^ 40 →
    (∀ g ∈ paging.tables k.mem l (frame e) (List.finRange 512), g ∉ k.pmm.freeSet) →
    Meets (clone e k) (CloneStop k (paging.tables k.mem l (frame e) (List.finRange 512)).length)
      fun r => ∃ d S, r.1 = pageAddr d ∧ d < 2 ^ 40 ∧ TableCloned l (frame e) k r.2 d S

section Entry

variable {l src dst : ℕ} {i : Fin 512} {k : Kern}

/-- an entry without a table below -/
theorem cloned_set {e : U64} (P : ClonePre l src dst k) (hw : ∀ x : ℕ → Fin 512, x l = i →
      (mmuWalk (k.set dst i e).mem l dst x).map Leaf.grant = (mmuWalk k.mem l src x).map Leaf.grant)
    (hdst : paging.tablesAt (k.set dst i e).mem l dst i = []) (hsrc : paging.tablesAt k.mem l src i = []) :
    Cloned l src dst [i] k (k.set dst i e) ∅ where
  takes := .refl P.pmm
  regs := ⟨rfl, rfl, rfl⟩
  outside f j _ hne := by
    rw [set_mem, if_neg fun hc => hne ⟨hc.1, mem_singleton.2 hc.2⟩]
  walk x hx := hw x (mem_singleton.1 hx)
  toHung := .of_nil fun j hj => mem_singleton.1 hj ▸ hdst
  card := by
    rw [flatMap_singleton, hsrc]
    rfl

theorem cloned_absent (P : ClonePre l src dst k) (hp : has (k.mem src i) vmmPresent = false) :
    Cloned l src dst [i] k (k.set dst i 0) ∅ := by
  have hdst : has ((k.set dst i 0).mem dst i) vmmPresent = false := by rw [set_mem_self, zero_has]
  refine cloned_set P (fun x hx => ?_) (gather_absent hdst) (gather_absent hp)
  subst hx
  rw [mmuWalk_absent hp, mmuWalk_absent hdst]

/-- a leaf is shared -/
theorem cloned_leaf (P : ClonePre l src dst k) (hsrc : paging.tablesAt k.mem l src i = []) :
    Cloned l src dst [i] k (k.set dst i (k.mem src i)) ∅ := by
  have hnone : ∀ {m : PhysMem}, ∀ g ∈ paging.tablesAt k.mem l src i, m g = k.mem g := fun g hg => by
    rw [hsrc] at hg
    exact absurd hg not_mem_nil
  refine cloned_set P (fun x hx => ?_) ?_ hsrc
  · subst hx
    rw [mmuWalk_congr (set_mem_self ..) hnone]
  · rw [← hsrc]
    exact gather_congr (set_mem_self ..) hnone

/-- a pointer to a table becomes a pointer to its copy -/
theorem cloned_link {k₁ : Kern} {d : ℕ} {S : Finset ℕ} (P : ClonePre (l + 1) src dst k)
    (hl : paging.link l (k.mem src i) = true) (hd : d < 2 ^ 40) (C : TableCloned l (frame (k.mem src i)) k k₁ d S) :
    Cloned (l + 1) src dst [i] k (k₁.set dst i (pageAddr d ||| (k.mem src i &&& 0xFFF#64))) S := by
  have hflags := sameFlags_forked hd (k.mem src i)
  have hnext : frame (pageAddr d ||| (k.mem src i &&& 0xFFF#64)) = d := frame_forked hd _
  have hexec : has (pageAddr d ||| (k.mem src i &&& 0xFFF#64)) vmmNoexec = false := exec_forked hd _
  generalize pageAddr d ||| (k.mem src i &&& 0xFFF#64) = e' at hflags hnext hexec
  have hl' : paging.link l ((k₁.set dst i e').mem dst i) = true := by
    rw [set_mem_self, hflags.link]
    exact hl
  have hnext' : paging.next ((k₁.set dst i e').mem dst i) = d := by
    rw [set_mem_self]
    exact hnext
  have hdst : dst ∉ S := C.takes.draws.notMem P.dstUsed
  -- the store to `dst` leaves the copy alone
  have hA : Agree paging k₁.mem (k₁.set dst i e').mem l d (finRange 512) :=
    .of_tables fun g hg => set_mem_of_ne _ _ _ fun hc => hdst (hc ▸ C.fresh g hg)
  constructor
  case toHung => exact C.toPlanted.hung hA hl' hnext' (by rw [set_mem_self]; exact hexec)
  case takes => exact C.takes
  case regs => exact C.regs
  case outside =>
    intro f j hf hne
    rw [set_mem, if_neg fun hc => hne ⟨hc.1, mem_singleton.2 hc.2⟩, C.outside f hf]
  case walk =>
    intro x hx
    rw [mem_singleton] at hx
    subst hx
    have hwalk : mmuWalk (k₁.set dst (x (l + 1)) e').mem l d x = mmuWalk k₁.mem l d x :=
      mmuWalk_congr (hA.root _ (mem_finRange _)) (hA.below _ (mem_finRange _))
    rw [mmuWalk_link hl, mmuWalk_link hl', set_mem_self, hnext, hwalk, grant_through, grant_through, C.walk,
      hflags.passes]
  case card =>
    rw [C.card, flatMap_singleton, tablesAt_link hl]
    rfl

/-- the entries of a page table -/
theorem cloneEntry_leaf {clone : U64 → Kern → Except Stop (PAddr × Kern)} (P : ClonePre 0 src dst k) :
    Meets (cloneEntry clone 0 src dst k i) (CloneStop k (paging.tablesAt k.mem 0 src i).length)
      fun k' => ∃ S, Cloned 0 src dst [i] k k' S := by
  simp only [cloneEntry]
  cases hp : has (k.mem src i) vmmPresent with
  | false => exact meets_ok ⟨∅, cloned_absent P hp⟩
  | true =>
    simp only [Bool.not_true, Bool.false_eq_true, if_false, true_or, if_true]
    exact meets_ok ⟨∅, cloned_leaf P (ite_self _)⟩

/-- the entries of a table of tables; bit 7 is 0 where the architecture has no large page -/
theorem cloneEntry_link {clone : U64 → Kern → Except Stop (PAddr × Kern)} (hclone : Clones l clone)
    (P : ClonePre (l + 1) src dst k)
    (hvalid : 2 ≤ l → has (k.mem src i) vmmPresent = true → has (k.mem src i) pdePs = false) :
    Meets (cloneEntry clone (l + 1) src dst k i) (CloneStop k (paging.tablesAt k.mem (l + 1) src i).length)
      fun k' => ∃ S, Cloned (l + 1) src dst [i] k k' S := by
  simp only [cloneEntry]
  cases hp : has (k.mem src i) vmmPresent with
  | false => exact meets_ok ⟨∅, cloned_absent P hp⟩
  | true =>
    cases hs : has (k.mem src i) pdePs with
    | true =>
      have hl : paging.link l (k.mem src i) = false := by
        refine not_paging_link (Nat.lt_of_not_le fun hc => ?_) hs
        rw [hvalid hc hp] at hs
        exact absurd hs (by decide)
      simp only [Bool.not_true, Bool.false_eq_true, if_false, or_true, if_true]
      refine meets_ok ⟨∅, cloned_leaf P ?_⟩
      rw [Format.tablesAt, Format.gather, if_neg (by rw [hl]; decide), ite_self]
    | false =>
      have hl : paging.link l (k.mem src i) = true := paging_link hp hs
      have htab : paging.tablesAt k.mem (l + 1) src i = paging.tables k.mem l (frame (k.mem src i)) (finRange 512) :=
        tablesAt_link hl
      simp only [Bool.not_true, Bool.false_eq_true, if_false, Nat.succ_ne_zero, or_self]
      rw [htab]
      refine (hclone _ k P.pmm P.phys fun g hg => P.used g ?_).bind ?_
      · rw [← htab] at hg
        exact mem_cons_of_mem _ (mem_flatMap.2 ⟨i, mem_finRange i, hg⟩)
      · rintro ⟨pa, k₁⟩ ⟨d, S, hpa, hd, C⟩
        simp only at hpa C
        rw [hpa]
        exact meets_ok ⟨S, cloned_link P hl hd C⟩

end Entry

/-! ## Whole tables -/

section Table

variable {l : ℕ} {k : Kern}

/-- the loop over the entries, after the page for the copy is taken -/
theorem cloneLoop_spec {body : Kern → Fin 512 → Except Stop Kern} {src dst : ℕ} (P : ClonePre l src dst k)
    (hbody : ∀ k' i, ClonePre l src dst k' → k'.mem src i = k.mem src i →
      Meets (body k' i) (CloneStop k' (paging.tablesAt k'.mem l src i).length) fun k'' =>
      ∃ S, Cloned l src dst [i] k' k'' S) :
    Meets ((finRange 512).foldlM body k)
      (CloneStop k ((finRange 512).flatMap (paging.tablesAt k.mem l src)).length)
      fun k' => ∃ S, Cloned l src dst (finRange 512) k k' S := by
  refine foldlM_meets (fun pre k' => ∃ S, Cloned l src dst pre k k' S) ⟨∅, .refl P.pmm⟩ ?_
  rintro pre i post k' his ⟨S, F⟩
  have hi : i ∉ pre := fun hc =>
    (nodup_append.1 (his ▸ nodup_finRange 512)).2.2 i hc i mem_cons_self rfl
  have hA : Agree paging k.mem k'.mem l src (finRange 512) := .of_tables (F.source P)
  refine (hbody k' i (F.next P) (hA.root i (mem_finRange i))).mono ?_ ?_
  · -- the pages taken so far and those still wanted are among the pages of the whole loop
    rintro st ⟨hst, hshort⟩
    refine ⟨hst, ?_⟩
    have hlen : ((finRange 512).flatMap (paging.tablesAt k.mem l src)).length =
        S.card + (paging.tablesAt k.mem l src i).length + (post.flatMap (paging.tablesAt k.mem l src)).length := by
      rw [his, flatMap_append, flatMap_cons, length_append, length_append, F.card, Nat.add_assoc]
    have hsub : S.card ≤ k.pmm.freeSet.card := Finset.card_le_card F.takes.sub
    rw [F.takes.free, Finset.card_sdiff_of_subset F.takes.sub, hA.tablesAt (mem_finRange i)] at hshort
    omega
  · rintro k'' ⟨S', G⟩
    exact ⟨S ∪ S', F.append P hi G⟩

/-- the copy, with its page -/
theorem Cloned.table {k' : Kern} {p : Pmm} {src d : ℕ} {S : Finset ℕ} (hT : Takes k.pmm {d} p)
    (F : Cloned l src d (finRange 512) (k.setPmm p) k' S) : TableCloned l src k k' d ({d} ∪ S) := by
  have hdS : d ∉ S := F.takes.draws.notMem (hT.draws.taken_notMem_free (Finset.mem_singleton_self d))
  constructor
  case takes => exact hT.trans F.takes
  case regs => exact F.regs
  case outside =>
    intro f hf
    rw [Finset.mem_union, Finset.mem_singleton, not_or] at hf
    funext j
    exact F.outside f j hf.2 fun hc => hf.1 hc.1
  case walk => exact fun x => F.walk x (mem_finRange _)
  case toPlanted => exact F.toHung.planted hdS
  case card =>
    rw [Finset.card_union_of_disjoint (Finset.disjoint_singleton_left.2 hdS), Finset.card_singleton, F.card,
      Nat.add_comm]
    rfl

/-- **`clone_table`**, given what it does with one entry. -/
theorem cloneWith_spec {clone : U64 → Kern → Except Stop (PAddr × Kern)} {e : U64} (hk : k.pmm.Ok)
    (hphys : k.pmm.bitmapLen ≤ 2 ^ 40)
    (hused : ∀ g ∈ paging.tables k.mem l (frame e) (finRange 512), g ∉ k.pmm.freeSet)
    (hentry : ∀ k' dst i, ClonePre l (frame e) dst k' → k'.mem (frame e) i = k.mem (frame e) i →
      Meets (cloneEntry clone l (frame e) dst k' i) (CloneStop k' (paging.tablesAt k'.mem l (frame e) i).length)
        fun k'' => ∃ S, Cloned l (frame e) dst [i] k' k'' S) :
    Meets (cloneWith clone l e k) (CloneStop k (paging.tables k.mem l (frame e) (finRange 512)).length)
      fun r => ∃ d S, r.1 = pageAddr d ∧ d < 2 ^ 40 ∧ TableCloned l (frame e) k r.2 d S := by
  unfold cloneWith
  refine meets_alloc hk (fun h0 => ?_) fun d p hd h0 hT => ?_
  · refine meets_error ⟨rfl, ?_⟩
    rw [h0]
    exact Nat.succ_pos _
  · have hd40 := Pmm.lt_of_free hd hphys
    simp only [if_neg h0, Pmm.pageIdx_pageAddr (show d < 2 ^ 52 by omega)]
    have P : ClonePre l (frame e) d (k.setPmm p) := by
      refine ⟨hT.ok, hT.len ▸ hphys, fun g hg => hT.draws.notMem_free (hused g hg), ?_, fun hc => hused d hc hd⟩
      exact hT.draws.taken_notMem_free (Finset.mem_singleton_self d)
    refine ((cloneLoop_spec P fun k' i P' hsame => hentry k' d i P' hsame).mono ?_ fun _ hr => hr).bind ?_
    · rintro st ⟨hst, hshort⟩
      refine ⟨hst, ?_⟩
      rw [setPmm_pmm, hT.free, Finset.card_sdiff_of_subset hT.sub, Finset.card_singleton] at hshort
      have hpos : 0 < k.pmm.freeSet.card := Finset.card_pos.2 ⟨d, hd⟩
      rw [Format.tables, length_cons]
      change _ < ((finRange 512).flatMap (paging.tablesAt k.mem l (frame e))).length at hshort
      omega
    · rintro k' ⟨S, F⟩
      exact meets_ok ⟨d, {d} ∪ S, rfl, hd40, F.table hT⟩

/-- tables below the PML4 -/
theorem cloneTable_clones {l : ℕ} (hl : l ≤ 2) : Clones l (cloneTable l) := by
  induction l with
  | zero =>
    intro e k hk hphys hused
    exact cloneWith_spec hk hphys hused fun k' dst i P _ => cloneEntry_leaf P
  | succ l ih =>
    intro e k hk hphys hused
    refine cloneWith_spec hk hphys hused fun k' dst i P _ => ?_
    exact cloneEntry_link (ih (by omega)) P fun hc => absurd hc (by omega)

/-- the hierarchy at `cr3` is one that the architecture allows: a PML4 entry has no page-size bit -/
def ValidTop (k : Kern) : Prop :=
  ∀ i, has (k.mem (frame k.cr3) i) vmmPresent = true → has (k.mem (frame k.cr3) i) pdePs = false

/-- the PML4 -/
theorem cloneTop_spec (hk : k.pmm.Ok) (hphys : k.pmm.bitmapLen ≤ 2 ^ 40) (hvalid : ValidTop k)
    (hused : ∀ g ∈ paging.tables k.mem 3 (frame k.cr3) (finRange 512), g ∉ k.pmm.freeSet) :
    Meets (cloneTable 3 k.cr3 k) (CloneStop k (paging.tables k.mem 3 (frame k.cr3) (finRange 512)).length)
      fun r => ∃ d S, r.1 = pageAddr d ∧ d < 2 ^ 40 ∧ TableCloned 3 (frame k.cr3) k r.2 d S := by
  have hspec : Meets (cloneWith (cloneTable 2) 3 k.cr3 k) _ _ :=
    cloneWith_spec hk hphys hused fun k' dst i P hsame => by
    refine cloneEntry_link (cloneTable_clones le_rfl) P fun _ hp => ?_
    rw [hsame] at hp ⊢
    exact hvalid i hp
  exact hspec

/-- **The boot clone.** For every valid hierarchy whose tables are not free pages, `clone_table(cr3, 3)` returns unless
there are fewer free pages than tables. At every address the processor then walks the copy as it walked the original: to
the same physical address, through the same leaf, with the same write and user permissions. The tables of the copy are
different pages that were free before, and no page that was in use has changed, the original tables among them. -/
theorem clone_walks_alike (k : Kern) (hk : k.pmm.Ok) (hphys : k.pmm.bitmapLen ≤ 2 ^ 40) (hvalid : ValidTop k)
    (hused : ∀ g ∈ paging.tables k.mem 3 (frame k.cr3) (List.finRange 512), g ∉ k.pmm.freeSet) :
    Meets (cloneTable 3 k.cr3 k)
      (fun st => st = .panic .vmmOomClone ∧
        k.pmm.freeSet.card < (paging.tables k.mem 3 (frame k.cr3) (List.finRange 512)).length)
      fun r => ∃ d, r.1 = pageAddr d ∧
        (∀ va, (mmuWalk r.2.mem 3 d (idx va)).map (fun t => (t.physAddr va, t.entry, t.write, t.user)) =
          (mmuWalk k.mem 3 (frame k.cr3) (idx va)).map fun t => (t.physAddr va, t.entry, t.write, t.user)) ∧
        (paging.tables r.2.mem 3 d (List.finRange 512)).Nodup ∧
        (∀ g ∈ paging.tables r.2.mem 3 d (List.finRange 512), g ∈ k.pmm.freeSet ∧ g ∉ r.2.pmm.freeSet) ∧
        ∀ f, f ∉ k.pmm.freeSet → r.2.mem f = k.mem f := by
  refine (cloneTop_spec hk hphys hvalid hused).mono (fun st hst => hst) ?_
  rintro ⟨pa, k'⟩ ⟨d, S, hpa, hd, C⟩
  simp only at hpa C
  refine ⟨d, hpa, fun va => ?_, C.nodup, fun g hg => ?_, fun f hf => ?_⟩
  · -- the physical address is a matter of the leaf and its level
    have hgrant : (fun t : Leaf => (t.physAddr va, t.entry, t.write, t.user)) =
        (fun g => (Leaf.physAddr ⟨g.1, g.2.1, false, false, false⟩ va, g.2.1, g.2.2.1, g.2.2.2)) ∘ Leaf.grant := rfl
    rw [hgrant, ← Option.map_map, C.walk, Option.map_map]
  · exact ⟨C.takes.sub (C.fresh g hg), C.takes.draws.taken_notMem_free (C.fresh g hg)⟩
  · exact C.outside f (C.takes.draws.notMem hf)

/-- a hierarchy of four tables with one page in it -/
theorem clone_one_page : ∃ pa k', cloneTable 3 (onePage 0x5007#64).cr3 (onePage 0x5007#64) = .ok (pa, k') ∧
    ∃ d, pa = pageAddr d ∧ (mmuWalk k'.mem 3 d (idx 0x400000#64)).map
      (fun t => (t.physAddr 0x400000#64, t.entry, t.write, t.user)) = some (0x5000, 0x5007#64, true, true) := by
  have hcr3 : frame (onePage 0x5007#64).cr3 = 1 := frame_pageAddr (by decide)
  have htab : paging.tables (onePage 0x5007#64).mem 3 1 (List.finRange 512) = [1, 2, 3, 4] :=
    single_tables (List.mem_finRange 0) (List.nodup_finRange 512)
  have hfree : (onePage 0x5007#64).pmm.freeSet = Finset.Ico 6 64 := Pmm.freeSet_fresh _ _ (by decide)
  have T := onePage_trees 0x5007#64
  have hvalid : ValidTop (onePage 0x5007#64) := by
    intro i hp
    rw [hcr3] at hp ⊢
    change has (single 0x5007#64 1 i) pdePs = false
    change has (single 0x5007#64 1 i) vmmPresent = true at hp
    by_cases hi : i = 0
    · rw [hi]
      rfl
    · simp only [single, hi, and_false, if_false, Nat.reduceEqDiff, false_and] at hp
      exact absurd hp (by decide)
  have hspec := clone_walks_alike (onePage 0x5007#64) T.pmm T.phys hvalid (by rw [hcr3, htab, hfree]; decide)
  obtain ⟨⟨pa, k'⟩, hrun, d, hpa, hwalk, -⟩ := hspec.exists_ok fun st hst => by
    have := hst.2
    rw [hcr3, htab, hfree] at this
    exact absurd this (by decide)
  refine ⟨pa, k', hrun, d, hpa, ?_⟩
  rw [hwalk, hcr3]
  rfl

end Table

end Kern

end Uix
