/-
ELF loading and the kernel half. `elf_load` takes the addresses of a segment as they stand in the file: a segment of the
kernel half is loaded into the tables that all address spaces share, unless memory has run out before.

- `outside_touched`: the first page outside the user half is mapped exactly if there is a page left for it.
- `elf_load_confined`: so a load leaves the kernel half alone exactly if there is none, or no such page.
- `elf_load_maps_kernel_half`: a file with one segment at 0xffffffff00000000.
-/
import Uix.Cpu.ElfReads

namespace Uix.Elf

open Machine Radix Radix.Format List Kern

/-- the load touched user addresses only; the entries 256 .. 511 of the PML4 and all walks through them are as before -/
structure Confined (k : Kern) (s : Load) : Prop where
  touched : ∀ va ∈ s.touched, va < userEnd
  entries : ∀ i ∈ upperHalf, s.kern.mem k.pml4 i = k.mem k.pml4 i
  walks : ∀ x : ℕ → Fin 512, x 3 ∈ upperHalf → mmuWalk s.kern.mem 3 k.pml4 x = mmuWalk k.mem 3 k.pml4 x

/-- the pages before the first one outside the user half, and their tables, take all of the `free` pages -/
def RunsOut (img : Image) (free : ℕ) : Prop := ∀ eh pre va post, header img = .ok (some eh) →
  imagePages img eh = pre ++ va :: post → (∀ a ∈ pre, a < userEnd) → ¬ va < userEnd → free ≤ cost .fresh pre.reverse

section Confined

variable {img : Image} {k : Kern} {pre post : List (Phdr × U64)} {p : Phdr × U64} {s t : Load} {d : Bool}

theorem Filled.confined (F : Filled k s)
    (hkernel : ∀ i ∈ upperHalf, ∀ g ∈ paging.tablesAt k.mem 3 k.pml4 i, g ∉ k.pmm.freeSet ∧ g ≠ k.pml4) :
    Confined k s := by
  obtain ⟨⟨S, F⟩, htouched⟩ := F
  have hup : ∀ i ∈ upperHalf, i ∉ lowerHalf := fun i hi => by
    rw [Kern.mem_upperHalf] at hi
    rw [Kern.mem_lowerHalf]
    omega
  exact ⟨htouched, fun i hi => F.upper i (hup i hi), fun x hx => F.kernelHalf (hup _ hx) (hkernel _ hx)⟩

theorem loadTargets_filled (hcr3 : frame k.cr3 = k.pml4) (hpre : ∀ q ∈ pre, q.2 < userEnd) (F : Filled k s)
    (h : loadTargets img pre s = .ok (d, t)) : Filled k t := by
  induction pre generalizing s with
  | nil => exact (Prod.mk.inj (pure_ok.1 h)).2 ▸ F
  | cons q pre ih =>
    obtain ⟨hq, hpre⟩ := forall_mem_cons.1 hpre
    obtain ⟨⟨e, u⟩, hpage, h⟩ := bind_ok.1 h
    have F1 : Filled k u := (loadPage_filled hcr3 F hq).of_eq hpage
    cases e with
    | false => exact (Prod.mk.inj (pure_ok.1 h)).2 ▸ F1
    | true => exact ih hpre F1 h

/-- a page is loaded whenever one is left -/
theorem loadPage_done (hok : s.kern.pmm.Ok) (h : loadPage img p.1 p.2 s = .ok (d, t)) :
    (s.kern.pmm.freeSet = ∅ ∧ d = false ∧ t = s) ∨ (s.kern.pmm.freeSet ≠ ∅ ∧ d = true) := by
  have hrun : Meets (loadPage img p.1 p.2 s) (fun _ => True) fun r =>
      (s.kern.pmm.freeSet = ∅ ∧ r.1 = false ∧ r.2 = s) ∨ (s.kern.pmm.freeSet ≠ ∅ ∧ r.1 = true) := by
    unfold loadPage
    refine meets_alloc hok (fun hempty => meets_ok (.inl ⟨hempty, rfl, rfl⟩)) fun t q ht h0 _ => ?_
    have hne : s.kern.pmm.freeSet ≠ ∅ := Finset.ne_empty_of_mem ht
    simp only [if_neg h0]
    refine ⟨fun {r} hr => .inr ⟨hne, ?_⟩, fun _ => trivial⟩
    obtain ⟨k1, -, hr⟩ := bind_ok.1 hr
    split_ifs at hr
    · obtain ⟨k2, -, hr⟩ := bind_ok.1 hr
      exact (congrArg Prod.fst (pure_ok.1 hr)).symm
    · exact (congrArg Prod.fst (pure_ok.1 hr)).symm
  exact hrun.of_eq h

/-- **The first page outside the user half.** -/
theorem outside_touched (h : k.FreshSpace) (hpre : ∀ q ∈ pre, q.2 < userEnd)
    (hrun : loadTargets img (pre ++ p :: post) ⟨k, []⟩ = .ok (d, t)) :
    (k.pmm.freeSet.card ≤ cost .fresh (after [] pre) ∧ Filled k t) ∨
      (cost .fresh (after [] pre) < k.pmm.freeSet.card ∧ p.2 ∈ t.touched) := by
  have F0 : Filled k ⟨k, []⟩ := ⟨⟨∅, h.filling⟩, fun va hva => absurd hva not_mem_nil⟩
  rw [loadTargets_append] at hrun
  obtain ⟨⟨e, u⟩, hload, hrun⟩ := bind_ok.1 hrun
  have F := loadTargets_filled h.cr3 hpre F0 hload
  have hspilt : ¬ Spilt .fresh img [] pre := fun ⟨⟨_, _, hc⟩, _⟩ => not_spills_fresh hc.2
  obtain ⟨hdone, hshort⟩ :=
    (@loadTargets_account img lowerHalf .fresh k ⟨k, []⟩ [] pre h.stockedFresh lowerHalf_nodup h.cr3
    fun q hq => within_user (hpre q hq)).of_eq hload
  cases e with
  | false =>
    obtain rfl := (Prod.mk.inj (pure_ok.1 hrun)).2
    exact .inl ⟨((hshort rfl).resolve_right hspilt).le, F⟩
  | true =>
    obtain ⟨-, hs⟩ := (hdone rfl).resolve_right hspilt
    have hleft : u.kern.pmm.freeSet.card + cost .fresh (after [] pre) = k.pmm.freeSet.card := hs.left
    obtain ⟨⟨e, v⟩, hpage, hrest⟩ := bind_ok.1 hrun
    rcases loadPage_done hs.trees.pmm hpage with ⟨hempty, rfl, rfl⟩ | ⟨hne, rfl⟩
    · obtain rfl := (Prod.mk.inj (pure_ok.1 hrest)).2
      rw [hempty, Finset.card_empty] at hleft
      exact .inl ⟨by omega, F⟩
    · have hpos : 0 < u.kern.pmm.freeSet.card := Finset.card_pos.2 (Finset.nonempty_iff_ne_empty.2 hne)
      exact .inr ⟨by omega, (loadTargets_touched hrest).1 _ ((loadPage_touched hpage).2 rfl)⟩

/-- an image with segments outside the user half has a first such page -/
theorem exists_outside (h : ¬ UserSegments img) : ∃ eh pre p post, header img = .ok (some eh) ∧
    fileTargets img eh = pre ++ p :: post ∧ (∀ q ∈ pre, q.2 < userEnd) ∧ ¬ p.2 < userEnd := by
  unfold UserSegments at h
  push Not at h
  obtain ⟨eh, heh, i, hi, ph, hph, hout⟩ := h
  obtain ⟨va, hva, hnot⟩ := Phdr.exists_page hout
  have hmem : (ph, va) ∈ fileTargets img eh := mem_fileTargets.2 ⟨⟨i, hi, hph⟩, hva⟩
  have hfind : ((fileTargets img eh).find? fun q => !decide (q.2 < userEnd)).isSome :=
    find?_isSome.2 ⟨_, hmem, by simpa using hnot⟩
  obtain ⟨p, hp⟩ := Option.isSome_iff_exists.1 hfind
  obtain ⟨hp, pre, post, hsplit, hpre⟩ := find?_eq_some_iff_append.1 hp
  exact ⟨eh, pre, p, post, heh, hsplit, fun q hq => by simpa using hpre q hq, by simpa using hp⟩

end Confined

/-- **ELF loading and the kernel half.** In a new space whose kernel half has its tables in pages in use, a load that
returns touches user addresses only and leaves the kernel half as it was exactly if memory runs out before its first
page outside the user half. There is no such page if the segments all lie in the user half, and a load that returns an
entry point has not run out of memory. -/
theorem elf_load_confined (img : Image) (k : Kern) (h : k.FreshSpace)
    (hkernel : ∀ i ∈ upperHalf, ∀ g ∈ paging.tablesAt k.mem 3 k.pml4 i, g ∉ k.pmm.freeSet ∧ g ≠ k.pml4)
    (entry : U64) (s : Load) (hload : elfLoad img k = .ok (entry, s)) :
    (Confined k s ↔ RunsOut img k.pmm.freeSet.card) ∧ (UserSegments img → Confined k s) ∧
      (entry ≠ 0 → (Confined k s ↔ UserSegments img)) := by
  have hsuff : UserSegments img → Confined k s := fun huser => ((elfLoad_filling h huser).of_eq hload).confined hkernel
  refine ⟨⟨?_, fun hout => ?_⟩, hsuff, fun hentry => ⟨fun hc => ?_, hsuff⟩⟩
  · intro hc eh pre va post heh hsplit hpre hva
    obtain ⟨pre, rest, hl, rfl, hrest⟩ := map_eq_append_iff.1 hsplit
    obtain ⟨p, post, rfl, rfl, rfl⟩ := map_eq_cons_iff.1 hrest
    obtain ⟨d, hrun, -⟩ := elfLoad_targets hload heh
    rw [hl] at hrun
    rcases outside_touched h (fun q hq => hpre _ (mem_map_of_mem hq)) hrun with ⟨hfew, -⟩ | ⟨-, ht⟩
    · rwa [after, append_nil] at hfew
    · exact absurd (hc.touched _ ht) hva
  · by_cases huser : UserSegments img
    · exact hsuff huser
    obtain ⟨eh, pre, p, post, heh, hl, hpre, hp⟩ := exists_outside huser
    obtain ⟨d, hrun, -⟩ := elfLoad_targets hload heh
    rw [hl] at hrun
    rcases outside_touched h hpre hrun with ⟨-, F⟩ | ⟨hmany, -⟩
    · exact F.confined hkernel
    · have hfew := hout eh (pre.map Prod.snd) p.2 (post.map Prod.snd) heh (by rw [imagePages, hl, map_append, map_cons])
        (forall_mem_map.2 hpre) hp
      rw [after, append_nil] at hmany
      omega
  · by_contra huser
    obtain ⟨eh, pre, p, post, heh, hl, -, hp⟩ := exists_outside huser
    obtain ⟨d, hrun, hd⟩ := elfLoad_targets hload heh
    refine hp (hc.touched _ ((loadTargets_touched hrun).2 (hd hentry) p ?_))
    rw [hl]
    exact mem_append_right _ mem_cons_self

/-! ### A file with one segment -/

theorem bootKern_kernel : ∀ i ∈ upperHalf, ∀ g ∈ paging.tablesAt SpaceSet.bootKern.mem 3 SpaceSet.bootKern.pml4 i,
    g ∉ SpaceSet.bootKern.pmm.freeSet ∧ g ≠ SpaceSet.bootKern.pml4 := by
  intro i _ g hg
  have hmem : g ∈ paging.tables SpaceSet.bootMem 3 1 (finRange 512) :=
    mem_cons_of_mem _ (mem_flatMap.2 ⟨i, mem_finRange i, hg⟩)
  have hnodup : (paging.tables SpaceSet.bootMem 3 1 (finRange 512)).Nodup := by
    rw [SpaceSet.bootMem_tables]
    decide
  refine ⟨?_, root_ne_of_tables hnodup (mem_finRange i) hg⟩
  rw [SpaceSet.bootMem_tables] at hmem
  rw [SpaceSet.bootKern_free, Finset.mem_Ico]
  simp only [mem_cons, not_mem_nil, or_false] at hmem
  omega

/-- what is seen of a load of a file with one segment -/
def loadOne (vaddr : ℕ) : Option (U64 × List U64 × Option Leaf) :=
  match elfLoad (segmentImage 0 vaddr 0 1) SpaceSet.bootKern with
  | .ok (entry, s) => some (entry, s.touched, mmuWalk s.kern.mem 3 1 (idx (BitVec.ofNat 64 vaddr)))
  | .error _ => none

theorem loadOne_ok {vaddr : ℕ} {r : U64 × List U64 × Option Leaf} (h : loadOne vaddr = some r) :
    ∃ s, elfLoad (segmentImage 0 vaddr 0 1) SpaceSet.bootKern = .ok (r.1, s) ∧ s.touched = r.2.1 ∧
      mmuWalk s.kern.mem 3 1 (idx (BitVec.ofNat 64 vaddr)) = r.2.2 := by
  unfold loadOne at h
  cases hrun : elfLoad (segmentImage 0 vaddr 0 1) SpaceSet.bootKern with
  | error e =>
    rw [hrun] at h
    cases h
  | ok p =>
    rw [hrun, Option.some.injEq] at h
    rw [← h]
    exact ⟨p.2, rfl, rfl, rfl⟩

/-- **A file with a segment at 0xffffffff00000000** is loaded: its page is mapped below entry 511, in the tables that
all spaces share. -/
theorem elf_load_maps_kernel_half : ∃ img k entry s, k.FreshSpace ∧
    (∀ i ∈ upperHalf, ∀ g ∈ paging.tablesAt k.mem 3 k.pml4 i, g ∉ k.pmm.freeSet ∧ g ≠ k.pml4) ∧
    elfLoad img k = .ok (entry, s) ∧ entry ≠ 0 ∧ 0xffffffff00000000#64 ∈ s.touched ∧
    mmuWalk k.mem 3 k.pml4 (idx 0xffffffff00000000#64) = none ∧
    ∃ t, mmuWalk s.kern.mem 3 k.pml4 (idx 0xffffffff00000000#64) = some t ∧ t.write = true := by
  obtain ⟨s, hrun, htouched, hwalk⟩ := @loadOne_ok 0xffffffff00000000
    (r := (0x400000#64, [0xffffffff00000000#64], some ⟨0, 0x6007#64, true, false, false⟩)) (by decide +kernel)
  refine ⟨_, _, _, s, bootKern_fresh, bootKern_kernel, hrun, by decide, ?_, by decide, _, hwalk, by decide⟩
  rw [htouched]
  exact List.mem_singleton_self _

/-- a file with a page at 0x400000 -/
theorem elf_load_one_user_page : ∃ entry s,
    elfLoad (segmentImage 0 0x400000 0 1) SpaceSet.bootKern = .ok (entry, s) ∧ entry ≠ 0 ∧
    Confined SpaceSet.bootKern s ∧ s.touched = [0x400000#64] := by
  obtain ⟨s, hrun, htouched, -⟩ := @loadOne_ok 0x400000
    (r := (0x400000#64, [0x400000#64], some (.ofEntry 0 0x6007#64))) (by decide +kernel)
  refine ⟨_, s, hrun, by decide, ?_, htouched⟩
  refine (elf_load_confined _ _ bootKern_fresh bootKern_kernel _ s hrun).2.1 ?_
  have hheader : header (segmentImage 0 0x400000 0 1) = .ok (some ⟨64, 1⟩) := by decide +kernel
  have hsegment : segment (segmentImage 0 0x400000 0 1) ⟨64, 1⟩ 0 = .ok (some ⟨0, 0x400000#64, 0, 1⟩) := by
    decide +kernel
  intro eh heh i hi ph hph
  rw [hheader, Except.ok.injEq, Option.some.injEq] at heh
  subst heh
  obtain rfl : i = 0 := Nat.lt_one_iff.1 hi
  rw [hsegment, Except.ok.injEq, Option.some.injEq] at hph
  subst hph
  exact fun _ => by decide

end Uix.Elf
