/-
The load of one program, in two kernels and from two images that have the same bytes up to their end. What the loader
finds outside an image may differ, so it must not read there (`Elf.ReadsInside`).

- `Elf.elfLoad_same`, `loadImage_same`: then it does the same with both images.
- `Loaded`: the pages of a program, and the contents that are stored or cleared there.
- `loadImage_loaded`: the contents that an image has, and where.
- `loadImage_again`: a kernel with as many free pages loads the image too, with the same contents.
-/
import Uix.Cpu.FlatImage

namespace Uix

open Machine Radix Radix.Format Bytes List

/-! ## Two images -/

section Same

variable {img img' : Image}

theorem Image.copyIn_same {n : ℕ} {va off : U64} {k : Kern}
    (h : ∀ j < n, img'.get (off + BitVec.ofNat 64 j) = img.get (off + BitVec.ofNat 64 j)) :
    img'.copyIn n va off k = img.copyIn n va off k := by
  induction n generalizing va off k with
  | zero => rfl
  | succ n ih =>
    simp only [Nat.forall_lt_succ_left, addr_zero, addr_succ] at h
    rw [Image.copyIn, Image.copyIn, h.1]
    exact bind_congr fun b => bind_congr fun k => ih h.2

namespace Elf

variable {ph : Phdr} {eh : Ehdr} {s : Load}

/-- a page of a segment -/
theorem loadPage_same {va : U64} (h : img.Same img') (hlen : img.len.toNat ≤ 2 ^ 47)
    (hin : Copied ph va → ph.fileOff va ≤ img.len) : loadPage img' ph va s = loadPage img ph va s := by
  unfold loadPage
  rw [h.len]
  refine bind_congr fun ⟨pa, k⟩ => ?_
  dsimp only
  split_ifs with h0 hcopy
  · rfl
  · have hgets := h.gets ((copyLen_spec ph hlen hcopy.2).1 (hin hcopy)).2
    refine bind_congr fun k => ?_
    rw [Image.copyIn_same hgets]
  · rfl

theorem loadTargets_same {l : List (Phdr × U64)} (h : img.Same img') (hlen : img.len.toNat ≤ 2 ^ 47)
    (hin : ∀ p ∈ l, Copied p.1 p.2 → p.1.fileOff p.2 ≤ img.len) : loadTargets img' l s = loadTargets img l s := by
  induction l generalizing s with
  | nil => rfl
  | cons p l ih =>
    obtain ⟨hp, hin⟩ := forall_mem_cons.1 hin
    rw [loadTargets, loadTargets, loadPage_same h hlen hp]
    refine bind_congr ?_
    rintro ⟨_ | _, s⟩
    · rfl
    · exact ih hin

theorem loadSegments_same {is : List ℕ} (h : img.Same img') (hlen : img.len.toNat ≤ 2 ^ 47)
    (heh : header img = .ok (some eh)) (hin : eh.phoff ≤ img.len ∧ SegmentsInside img eh)
    (his : ∀ i ∈ is, i < eh.phnum) : loadSegments img' eh is s = loadSegments img eh is s := by
  induction is generalizing s with
  | nil => rfl
  | cons i is ih =>
    obtain ⟨hi, his⟩ := forall_mem_cons.1 his
    rw [loadSegments, loadSegments, segment_same h hlen heh hin.1 hi]
    cases hseg : segment img eh i with
    | error e => exact Eq.refl (Except.error e)
    | ok o =>
      rw [ok_bind, ok_bind]
      cases o with
      | none => exact ih his
      | some ph =>
        have hpages : ∀ s, loadPages img' ph ph.pages s = loadPages img ph ph.pages s := fun s => by
          rw [loadPages_eq, loadPages_eq]
          exact loadTargets_same h hlen (forall_mem_map.2 fun va hva hc => hin.2 i hi ph hseg va hva hc.1 hc.2)
        dsimp only
        rw [hpages]
        refine bind_congr ?_
        rintro ⟨d, s⟩
        dsimp only
        split_ifs
        · exact ih his
        · rfl

/-- **`elf_load`** of both images. -/
theorem elfLoad_same {k : Kern} (h : img.Same img') (hlen : img.len.toNat ≤ 2 ^ 47) (hin : ReadsInside img) :
    elfLoad img' k = elfLoad img k := by
  unfold elfLoad
  rw [header_same h]
  cases hheader : header img with
  | error e => rfl
  | ok o =>
    rw [ok_bind, ok_bind]
    cases o with
    | none => rfl
    | some eh =>
      dsimp only
      rw [loadSegments_same h hlen hheader (hin eh hheader) fun i hi => mem_range.1 hi,
        field_same (h.gets (le_trans (by decide) (header_len hheader)))]

end Elf

theorem Kern.loadFlat_same {k : Kern} (h : img.Same img') : loadFlat img' k = loadFlat img k := by
  have hpage : ∀ off ∈ flatOffsets img.len, ∀ k : Kern, loadFlatPage img' k off = loadFlatPage img k off := by
    intro off hoff k
    have hlt := mem_flatOffsets hoff
    unfold loadFlatPage
    rw [h.len]
    refine bind_congr fun ⟨pa, k⟩ => Image.copyIn_same (h.gets ?_)
    rw [BitVec.toNat_ofNat]
    split_ifs <;> omega
  unfold loadFlat
  rw [h.len]
  generalize flatOffsets img.len = l at hpage
  induction l generalizing k with
  | nil => rfl
  | cons off l ih =>
    obtain ⟨hoff, hpage⟩ := forall_mem_cons.1 hpage
    rw [foldlM_cons, foldlM_cons, hoff]
    exact bind_congr fun k => ih hpage

/-- **The load** of both images. -/
theorem Exec.loadImage_same {path : List (BitVec 8)} {k : Kern} (h : img.Same img') (hlen : img.len.toNat ≤ 2 ^ 47)
    (hin : Elf.ReadsInside img) : loadImage img' path k = loadImage img path k := by
  have helf : isElf img' = isElf img := by
    unfold isElf
    rw [h.len]
    by_cases hlen : img.len.toNat < 4
    · rw [if_pos hlen, if_pos hlen]
    · rw [h.get 0 (BitVec.lt_def.2 (by change 0 < _; omega)), h.get 1 (BitVec.lt_def.2 (by change 1 < _; omega))]
  unfold loadImage
  rw [helf, Elf.elfLoad_same h hlen hin, Kern.loadFlat_same h]

end Same

/-! ## What is stored -/

namespace Kern

/-- the space of `k₀` filled with `pages`, one after the other, and the contents `c` -/
structure Loaded (k₀ k : Kern) (c : Contents) (pages : List U64) : Prop where
  seen : Seen k₀ k c
  stocked : Stocked lowerHalf .fresh k₀ k pages.reverse

/-- the contents that a flat image has -/
def flatContents (img : Image) : Contents := patch (imageByte img 0) img.len.toNat userCodeBase fun _ => none

/-- **A flat image and the stack.** -/
theorem FreshSpace.loaded {img : Image} {k k' : Kern} (h : k.FreshSpace) (hsize : img.len.toNat + 0x400000 ≤ 2 ^ 47)
    (hbytes : img.Readable) (hrun : (loadFlat img k >>= mapStack) = .ok k') :
    Loaded k k' (flatContents img) (flatPages img.len ++ stackPages) := by
  have hs := (h.flat hsize hbytes).of_ok hrun
  obtain ⟨k1, hload, hmap⟩ := bind_ok.1 hrun
  refine ⟨((h.seen.loadFlat h.cr3 hsize).of_eq hload).mapStack.of_eq hmap, ?_⟩
  rwa [reverse_append]

end Kern

namespace Elf

open Kern (Contents Covered Span patch_ne_none vpage vpage_user)

variable {img : Image} {l : List (Phdr × U64)} {c : Contents} {x : UserAddr}

/-- a page of a segment is cleared, and a copy ends in it -/
theorem pageContents_ne_none {p : Phdr × U64} (halign : p.2.toNat % pageSize = 0)
    (hcopy : Copied p.1 p.2 → (p.1.copyLen img.len p.2).toNat ≤ pageSize) :
    pageContents img p c x ≠ none ↔ c x ≠ none ∨ x.1.toNat / pageSize = p.2.toNat / pageSize := by
  have hcleared : (if x.1.toNat / pageSize = p.2.toNat / pageSize then some 0 else c x) ≠ none ↔
      c x ≠ none ∨ x.1.toNat / pageSize = p.2.toNat / pageSize := by
    split_ifs with hx
    · exact iff_of_true (Option.some_ne_none _) (.inr hx)
    · exact (or_iff_left hx).symm
  unfold pageContents
  split_ifs with hc
  · rw [patch_ne_none, hcleared, or_iff_right_of_imp]
    rintro ⟨h1, h2⟩
    have := hcopy hc
    rw [pageSize] at halign this ⊢
    exact .inr (by omega)
  · exact hcleared

theorem targetContents_ne_none (hl : ∀ p ∈ l, p.2.toNat % pageSize = 0 ∧ p.2 < userEnd ∧
      (Copied p.1 p.2 → (p.1.copyLen img.len p.2).toNat ≤ pageSize)) :
    targetContents img l c x ≠ none ↔ c x ≠ none ∨ Covered (l.map Prod.snd) x.1 := by
  induction l generalizing c with
  | nil => exact (or_iff_left fun ⟨_, hc, _⟩ => absurd hc not_mem_nil).symm
  | cons p l ih =>
    obtain ⟨⟨halign, huser, hcopy⟩, hl⟩ := forall_mem_cons.1 hl
    have hpage : x.1.toNat / pageSize = p.2.toNat / pageSize ↔ vpage x.1 = vpage p.2 := by
      rw [vpage_user (BitVec.lt_def.1 x.2), vpage_user (BitVec.lt_def.1 huser)]
    rw [targetContents, foldl_cons, ← targetContents, ih hl, pageContents_ne_none halign hcopy, hpage,
      or_assoc, Covered, Covered, map_cons]
    simp only [mem_cons, exists_eq_or_imp]

end Elf

namespace Exec

open Kern (Contents Loaded stackContents stackContents_ne_none flatContents loadFlat mapStack)

/-- the contents that an image has, with its stack -/
def imageContents (img : Image) (path : List (BitVec 8)) : Contents :=
  match isElf img with
  | .ok true => match Elf.header img with
    | .ok (some eh) => stackContents path (Elf.targetContents img (Elf.fileTargets img eh) fun _ => none)
    | _ => fun _ => none
  | _ => flatContents img

/-- the bytes that the loader stores or clears -/
def Supplied (img : Image) (path : List (BitVec 8)) (x : UserAddr) : Prop :=
  if isElf img = .ok true then
    (∃ eh, Elf.header img = .ok (some eh) ∧ Kern.Covered (Elf.imagePages img eh) x.1) ∨ Kern.StackBytes path x
  else Kern.Span 0x400000 img.len.toNat x

section Load

variable {img : Image} {path : List (BitVec 8)} {k k' k₁ : Kern} {q : U64 × U64}

/-- a program that is launched: a flat image, or an ELF image with an accepted header -/
theorem loadImage_cases (hrun : loadImage img path k = .ok (some q, k₁)) :
    (isElf img = .ok false ∧ q = (userCodeBase, userStackTop - 16) ∧ (loadFlat img k >>= mapStack) = .ok k₁) ∨
    isElf img = .ok true ∧ ∃ eh l, Elf.header img = .ok (some eh) ∧ Elf.elfLoad img k = .ok (q.1, l) ∧ q.1 ≠ 0 ∧ (do
      let k ← l.kern.mapStack
      let (rsp, k) ← Kern.buildUserStack path k
      pure (some (q.1, rsp), k) : Except Stop (Option (U64 × U64) × Kern)) = .ok (some q, k₁) := by
  obtain ⟨elf, helf, hrun⟩ := bind_ok.1 hrun
  cases elf with
  | false =>
    obtain ⟨k2, hload, hrun⟩ := bind_ok.1 hrun
    obtain ⟨k3, hmap, hrun⟩ := bind_ok.1 hrun
    cases hrun
    exact .inl ⟨helf, rfl, bind_ok.2 ⟨k2, hload, hmap⟩⟩
  | true =>
    obtain ⟨⟨entry, l⟩, hload, hrun⟩ := bind_ok.1 hrun
    dsimp only at hrun
    split_ifs at hrun with h0
    · cases hrun
    obtain ⟨eh, heh⟩ := Elf.header_of_entry hload h0
    obtain rfl : entry = q.1 := by
      obtain ⟨k2, -, hr⟩ := bind_ok.1 hrun
      obtain ⟨r, -, hr⟩ := bind_ok.1 hr
      cases hr
      rfl
    exact .inr ⟨helf, eh, l, heh, hload, h0, hrun⟩

/-- **The image and the stack**: pages and contents. -/
theorem loadImage_loaded (h : k.FreshSpace) (himg : UserImage img) (hbytes : img.Readable) (hin : Elf.ReadsInside img)
    (hpath : path.length ≤ 63) (hrun : loadImage img path k = .ok (some q, k₁)) :
    Loaded k k₁ (imageContents img path) (filePages img ++ stackPages) ∧
      ∀ x, imageContents img path x ≠ none ↔ Supplied img path x := by
  unfold imageContents filePages Supplied
  rcases loadImage_cases hrun with ⟨helf, -, hflat⟩ | ⟨helf, eh, l, heh, hload, h0, hstack⟩
  · simp only [helf]
    refine ⟨h.loaded himg.size hbytes hflat, fun x => ?_⟩
    rw [if_neg (by simp)]
    exact Kern.patch_ne_none.trans (or_iff_left fun hc => hc rfl)
  · simp only [helf, heh]
    have huser : ∀ p ∈ Elf.fileTargets img eh, p.2 < userEnd := fun p hp => by
      obtain ⟨⟨i, hi, hseg⟩, hva⟩ := Elf.mem_fileTargets.1 hp
      exact (himg.segments eh heh i hi _ hseg).page hva
    refine ⟨⟨?_, ?_⟩, fun x => ?_⟩
    · obtain ⟨d, htargets, hd⟩ := Elf.elfLoad_targets hload heh
      rw [hd h0] at htargets
      obtain ⟨k2, hmap, hstack⟩ := bind_ok.1 hstack
      obtain ⟨⟨rsp, k3⟩, hbuild, hstack⟩ := bind_ok.1 hstack
      obtain ⟨-, rfl⟩ := Prod.mk.inj (pure_ok.1 hstack)
      have W := (Elf.loadTargets_seen huser h.seen h.cr3 htargets).mapStack.of_eq hmap
      exact (W.buildUserStack h.cr3 hpath).of_eq hbuild
    · rcases (Elf.elfLoad_account h himg.segments heh).of_eq hload with ⟨hz, -⟩ | ⟨-, hs, -⟩
      · exact absurd hz h0
      rw [reverse_append]
      exact ((hs.elfStack _ Kern.userFree_fresh h.cr3 hpath).of_ok hstack).2
    · simp only [if_true, Except.ok.injEq, Option.some.injEq, exists_eq_left']
      refine (stackContents_ne_none hpath).trans (or_congr_left ?_)
      refine (Elf.targetContents_ne_none fun p hp => ?_).trans (or_iff_right fun hc => hc rfl)
      obtain ⟨⟨i, hi, hseg⟩, hva⟩ := Elf.mem_fileTargets.1 hp
      refine ⟨Elf.page_aligned hva, huser p hp, fun hc => ?_⟩
      exact ((Elf.copyLen_spec p.1 (le_trans (Nat.le_add_right _ _) himg.size) hc.2).1
        ((hin eh heh).2 i hi _ hseg _ hva hc.1 hc.2)).1

/-- **The load in another kernel** that has as many pages. -/
theorem loadImage_again (h : k.FreshSpace) (h' : k'.FreshSpace) (hpmm : k'.pmm = k.pmm) (himg : UserImage img)
    (hbytes : img.Readable) (hpath : path.length ≤ 63) (hrun : loadImage img path k = .ok (some q, k₁)) :
    ∃ k₁', loadImage img path k' = .ok (some q, k₁') := by
  rcases loadImage_cases hrun with ⟨helf, rfl, hflat⟩ | ⟨helf, eh, l, heh, hload, h0, hstack⟩
  · have hstop := (h.flat himg.size hbytes).ok_iff.1 ⟨k₁, hflat⟩
    rw [← hpmm] at hstop
    obtain ⟨k₁', hflat', -⟩ := (h'.flat himg.size hbytes).ok hstop
    obtain ⟨k2, hload, hmap⟩ := bind_ok.1 hflat'
    exact ⟨k₁', bind_ok.2 ⟨false, helf, bind_ok.2 ⟨k2, hload, bind_ok.2 ⟨k₁', hmap, rfl⟩⟩⟩⟩
  · rcases (Elf.elfLoad_account h himg.segments heh).of_eq hload with ⟨hz, -⟩ | ⟨hl, hs, n, hn, hentry⟩
    · exact absurd hz h0
    have hroom : Kern.cost .fresh (Elf.imagePages img eh).reverse ≤ k'.pmm.freeSet.card := by
      rw [hpmm]
      exact (Nat.le_add_left _ _).trans hs.left.le
    obtain ⟨⟨entry, l'⟩, hload', hcase⟩ := (Elf.elfLoad_account h' himg.segments heh).exists_ok fun e he =>
      absurd (he.2 hl ⟨n, hn⟩) (Nat.not_lt.2 hroom)
    obtain ⟨-, hs', n', hn', hentry'⟩ := hcase.resolve_left fun hc => absurd hc.2 (Nat.not_lt.2 hroom)
    rw [hn, Except.ok.injEq] at hn'
    obtain rfl : entry = q.1 := by
      rw [hentry]
      exact hn' ▸ hentry'
    have hpred := hs.elfStack q.1 Kern.userFree_fresh h.cr3 hpath
    have hstop := hpred.ok_iff.1 ⟨_, hstack⟩
    rw [← hpmm] at hstop
    obtain ⟨⟨o, k₁'⟩, hstack', ho, -⟩ := (hs'.elfStack q.1 Kern.userFree_fresh h'.cr3 hpath).ok hstop
    have hq : some q = _ := (hpred.of_ok hstack).1
    refine ⟨k₁', bind_ok.2 ⟨true, helf, bind_ok.2 ⟨_, hload', ?_⟩⟩⟩
    dsimp only at ho ⊢
    rw [if_neg h0, hstack', ho, hq]

end Load

end Exec

end Uix
