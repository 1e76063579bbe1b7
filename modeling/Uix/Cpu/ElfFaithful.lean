/-
What a loaded ELF file looks like to the program. A page of a segment is cleared and gets the part of the file that
belongs there, but only if it does not start before the segment: `file_off >= ph[i].offset` fails for the first page of
a segment that starts in the middle of a page, and that page stays empty. The program headers are read as an array of
`struct elf64_phdr`, so `phentsize` plays no part.

- `pageContents_legal`, `targetContents_legal`: what a page and a file that follow the rules leave in memory.
- `WellFormed.loadable`: a file that follows the rules can be loaded.
- `elf_load_faithful`: a file that follows the rules, with its headers where the loader reads them, is loaded as it
  should be just if the first page of every unaligned segment is empty in the file.
- `elf_load_drops_first_page`: a segment of one byte at 0x400078.
-/
import Uix.Cpu.ImageBytes

namespace Uix

open Machine Radix Radix.Format Bytes List
open Pmm (pageIdx pageAddr)

namespace Elf

/-! ## The rules of the format -/

/-- the program header at `base` -/
def phdrAt (img : Image) (base : U64) : Except Stop (Option Phdr) := do
  let type ← img.field 4 base
  if type ≠ ptLoad then pure none else
  let offset ← img.field 8 (base + 8#64)
  let vaddr ← img.field 8 (base + 16#64)
  let filesz ← img.field 8 (base + 32#64)
  let memsz ← img.field 8 (base + 40#64)
  pure (some ⟨.ofNat 64 offset, .ofNat 64 vaddr, .ofNat 64 filesz, .ofNat 64 memsz⟩)

/-- program header `i` of a table with entries of `size` bytes -/
def entry (img : Image) (eh : Ehdr) (size i : ℕ) : Except Stop (Option Phdr) :=
  phdrAt img (eh.phoff + BitVec.ofNat 64 (i * size))

/-- the lower end of the user stack, `USER_STACK_TOP - USER_STACK_SIZE` -/
def stackBottom : ℕ := 0x7C0000

/-- what the format asks of a segment, in the user half below the stack -/
structure Phdr.Legal (ph : Phdr) (len : U64) : Prop where
  congruent : ph.vaddr.toNat % pageSize = ph.offset.toNat % pageSize
  sizes : ph.filesz ≤ ph.memsz
  inside : ph.offset.toNat + ph.filesz.toNat ≤ len.toNat
  below : ph.vaddr.toNat + ph.memsz.toNat ≤ stackBottom

/-- an image that can be read and follows the rules -/
structure WellFormed (img : Image) (eh : Ehdr) (size : ℕ) : Prop where
  bytes : ∀ off, off < img.len → img.byte off ≠ none
  table : eh.phoff.toNat + eh.phnum * size ≤ img.len.toNat
  legal : ∀ i < eh.phnum, ∀ ph, entry img eh size i = .ok (some ph) → ph.Legal img.len
  disjoint : ∀ i < eh.phnum, ∀ j < eh.phnum, i ≠ j → ∀ ph ph', entry img eh size i = .ok (some ph) →
    entry img eh size j = .ok (some ph') → ph.pages.Disjoint ph'.pages

/-- the segment in memory: the bytes of the file, then zeros -/
def Phdr.Faithful (ph : Phdr) (img : Image) (m : PhysMem) (root : ℕ) : Prop :=
  ∀ n < ph.memsz.toNat, userByte m root (ph.vaddr + BitVec.ofNat 64 n) =
    if n < ph.filesz.toNat then img.byte (ph.offset + BitVec.ofNat 64 n) else some 0

/-- the segment starts with a page, or what the file has for its first page is zero -/
def Phdr.FirstPage (ph : Phdr) (img : Image) : Prop :=
  ph.vaddr.toNat % pageSize = 0 ∨ ∀ n < ph.filesz.toNat,
    (ph.vaddr.toNat + n) / pageSize = ph.vaddr.toNat / pageSize → img.byte (ph.offset + BitVec.ofNat 64 n) = some 0

/-- the byte that `elf_load` leaves at `a`: the pages that start in the segment get their part of the file -/
def Phdr.loaded (ph : Phdr) (img : Image) (a : U64) : Option (BitVec 8) :=
  if ph.vaddr.toNat ≤ a.toNat / pageSize * pageSize ∧ a.toNat < ph.vaddr.toNat + ph.filesz.toNat then
    img.byte (ph.offset + (a - ph.vaddr))
  else some 0

/-! ## Pages of a legal segment -/

section Legal

variable {ph : Phdr} {img : Image} {len va : U64}

theorem Phdr.start_eq (ph : Phdr) : ph.start.toNat = ph.vaddr.toNat / pageSize * pageSize := toNat_align _

theorem Phdr.Legal.stop (L : ph.Legal len) :
    ph.stop.toNat = (ph.vaddr.toNat + ph.memsz.toNat + 4095) / pageSize * pageSize := by
  have hbelow : ph.vaddr.toNat + ph.memsz.toNat ≤ 0x7C0000 := L.below
  rw [Phdr.stop, toNat_align, BitVec.toNat_add, BitVec.toNat_add, show (0xFFF#64).toNat = 4095 from rfl,
    Nat.mod_eq_of_lt (show ph.vaddr.toNat + ph.memsz.toNat < 2 ^ 64 by omega), Nat.mod_eq_of_lt (by omega)]

/-- the page of an address is one of the segment -/
def Phdr.Covers (vas : List U64) (a : U64) : Prop := ∃ va ∈ vas, a.toNat / pageSize = va.toNat / pageSize

theorem page_aligned (h : va ∈ ph.pages) : va.toNat % pageSize = 0 := by
  obtain ⟨n, hn, -⟩ := mem_pages.1 h
  obtain ⟨a, ha⟩ := start_dvd ph
  rw [hn, ha, pageSize]
  omega

theorem page_ext {ph' : Phdr} {va' : U64} (h : va ∈ ph.pages) (h' : va' ∈ ph'.pages)
    (hpage : va.toNat / pageSize = va'.toNat / pageSize) : va = va' := by
  have h1 := page_aligned h
  have h2 := page_aligned h'
  apply BitVec.eq_of_toNat_eq
  simp only [pageSize] at *
  omega

theorem Phdr.Legal.page_lt (L : ph.Legal len) (h : va ∈ ph.pages) : va.toNat + pageSize ≤ stackBottom := by
  obtain ⟨n, hn, hlt⟩ := mem_pages.1 h
  obtain ⟨a, ha⟩ := start_dvd ph
  obtain ⟨c, hc⟩ := stop_dvd ph
  have hbelow := L.below
  have hstop := L.stop
  simp only [pageSize, stackBottom] at *
  omega

theorem pages_distinct (ph : Phdr) : ph.pages.Pairwise fun a b => a.toNat / pageSize ≠ b.toNat / pageSize := by
  obtain ⟨a, ha⟩ := start_dvd ph
  obtain ⟨c, hc⟩ := stop_dvd ph
  have hlt := ph.stop.isLt
  have hval : ∀ n < (ph.stop.toNat - ph.start.toNat) / pageSize,
      (ph.start + BitVec.ofNat 64 (n * pageSize)).toNat / pageSize = a + n := by
    intro n hn
    rw [BitVec.toNat_add, BitVec.toNat_ofNat]
    simp only [pageSize] at *
    omega
  rw [Phdr.pages, pairwise_map]
  refine List.Pairwise.imp_of_mem ?_ (pairwise_lt_range (n := (ph.stop.toNat - ph.start.toNat) / pageSize))
  intro m n hm hn hmn
  rw [hval m (mem_range.1 hm), hval n (mem_range.1 hn)]
  omega

/-- every byte of the segment lies in one of its pages -/
theorem Phdr.Legal.covers (L : ph.Legal len) {n : ℕ} (hn : n < ph.memsz.toNat) :
    Phdr.Covers ph.pages (ph.vaddr + BitVec.ofNat 64 n) := by
  have hbelow : ph.vaddr.toNat + ph.memsz.toNat ≤ 0x7C0000 := L.below
  have hstart := ph.start_eq
  have hstop := L.stop
  have hsum : (ph.vaddr + BitVec.ofNat 64 n).toNat = ph.vaddr.toNat + n := by
    rw [BitVec.toNat_add, BitVec.toNat_ofNat]
    omega
  have hpage : (BitVec.ofNat 64 ((ph.vaddr.toNat + n) / pageSize * pageSize)).toNat =
      (ph.vaddr.toNat + n) / pageSize * pageSize := by
    rw [BitVec.toNat_ofNat, Nat.mod_eq_of_lt]
    exact lt_of_le_of_lt (Nat.div_mul_le_self _ _) (by omega)
  simp only [pageSize] at *
  refine ⟨BitVec.ofNat 64 ((ph.vaddr.toNat + n) / 4096 * 4096), mem_pages.2
    ⟨(ph.vaddr.toNat + n) / 4096 - ph.vaddr.toNat / 4096, ?_, ?_⟩, ?_⟩
  · rw [hpage, hstart, pageSize]
    omega
  · rw [hpage, hstop]
    omega
  · rw [hsum, hpage, pageSize]
    omega

/-- where the part of a page that starts in the segment is found in the file -/
theorem Phdr.Legal.fileOff_inside (L : ph.Legal len) (h1 : ph.vaddr.toNat ≤ va.toNat)
    (h2 : va.toNat < ph.vaddr.toNat + ph.filesz.toNat) :
    (ph.fileOff va).toNat = ph.offset.toNat + (va.toNat - ph.vaddr.toNat) := by
  have hinside := L.inside
  have hlenlt := len.isLt
  have hback : (va - ph.vaddr).toNat = va.toNat - ph.vaddr.toNat := BitVec.toNat_sub_of_le (BitVec.le_def.2 h1)
  rw [Phdr.fileOff, BitVec.toNat_add, hback, Nat.mod_eq_of_lt (by omega)]

/-- a page that starts before the segment does so in the file -/
theorem Phdr.Legal.fileOff_before (L : ph.Legal len) (hva : va ∈ ph.pages) (h : va.toNat < ph.vaddr.toNat) :
    (ph.fileOff va).toNat < ph.offset.toNat := by
  obtain ⟨n, hn, -⟩ := mem_pages.1 hva
  have hcong := L.congruent
  have hoff := ph.offset.isLt
  rw [ph.start_eq] at hn
  rw [pageSize] at hn hcong
  have hdist : ph.vaddr.toNat - va.toNat = ph.offset.toNat % 4096 := by omega
  have hneg : (va - ph.vaddr).toNat = 2 ^ 64 - (ph.vaddr.toNat - va.toNat) := by
    rw [BitVec.toNat_sub, Nat.mod_eq_of_lt (by omega)]
    omega
  rw [Phdr.fileOff, BitVec.toNat_add, hneg, hdist]
  omega

theorem Phdr.Legal.toNat_fileEnd (L : ph.Legal len) :
    (ph.vaddr + ph.filesz).toNat = ph.vaddr.toNat + ph.filesz.toNat := by
  have hbelow := L.below
  have hsizes := BitVec.le_def.1 L.sizes
  rw [stackBottom] at hbelow
  rw [BitVec.toNat_add, Nat.mod_eq_of_lt (by omega)]

/-- a page gets a part of the file if it does not start before the segment -/
theorem Phdr.Legal.copied_iff (L : ph.Legal len) (hva : va ∈ ph.pages) :
    (ph.offset ≤ ph.fileOff va ∧ va < ph.vaddr + ph.filesz) ↔
      ph.vaddr.toNat ≤ va.toNat ∧ va.toNat < ph.vaddr.toNat + ph.filesz.toNat := by
  rw [BitVec.lt_def, L.toNat_fileEnd, BitVec.le_def]
  refine and_congr_left fun hlt => ⟨fun h => ?_, fun h => ?_⟩
  · by_contra hc
    exact absurd (L.fileOff_before hva (by omega)) (by omega)
  · rw [L.fileOff_inside h hlt]
    omega

/-- the part is not cut short -/
theorem Phdr.Legal.copyLen_eq (L : ph.Legal len) (h1 : ph.vaddr.toNat ≤ va.toNat)
    (h2 : va.toNat < ph.vaddr.toNat + ph.filesz.toNat) :
    (ph.copyLen len va).toNat = min pageSize (ph.vaddr.toNat + ph.filesz.toNat - va.toNat) := by
  have hinside := L.inside
  have hlenlt := len.isLt
  have hsum : (ph.vaddr + ph.filesz - va).toNat = ph.vaddr.toNat + ph.filesz.toNat - va.toNat := by
    rw [BitVec.toNat_sub_of_le (BitVec.le_def.2 (by rw [L.toNat_fileEnd]; omega)), L.toNat_fileEnd]
  have hcut : (if 4096#64 < ph.vaddr + ph.filesz - va then 4096#64 else ph.vaddr + ph.filesz - va).toNat =
      min pageSize (ph.vaddr.toNat + ph.filesz.toNat - va.toNat) := by
    split_ifs with h
    · rw [BitVec.lt_def, hsum, BitVec.toNat_ofNat] at h
      rw [BitVec.toNat_ofNat, pageSize]
      omega
    · rw [BitVec.lt_def, hsum, BitVec.toNat_ofNat] at h
      rw [hsum, pageSize]
      omega
  simp only [Phdr.copyLen]
  rw [if_neg, hcut]
  rw [BitVec.lt_def, BitVec.toNat_add, hcut, L.fileOff_inside h1 h2, pageSize]
  omega

/-- **Faithful or not** is decided by the first page. -/
theorem Phdr.Legal.faithful_iff (L : ph.Legal img.len) {m : PhysMem} {r : ℕ}
    (h : ∀ a : U64, Phdr.Covers ph.pages a → userByte m r a = ph.loaded img a) :
    ph.Faithful img m r ↔ ph.FirstPage img := by
  have hbelow := L.below
  have hsizes := BitVec.le_def.1 L.sizes
  have hsum : ∀ n < ph.memsz.toNat, (ph.vaddr + BitVec.ofNat 64 n).toNat = ph.vaddr.toNat + n := by
    intro n hn
    rw [BitVec.toNat_add, BitVec.toNat_ofNat]
    simp only [stackBottom] at *
    omega
  have hbyte : ∀ n < ph.memsz.toNat, userByte m r (ph.vaddr + BitVec.ofNat 64 n) =
      if ph.vaddr.toNat ≤ (ph.vaddr.toNat + n) / pageSize * pageSize ∧ n < ph.filesz.toNat then
        img.byte (ph.offset + BitVec.ofNat 64 n) else some 0 := by
    intro n hn
    rw [h _ (L.covers hn), Phdr.loaded, hsum n hn,
      show ph.vaddr + BitVec.ofNat 64 n - ph.vaddr = BitVec.ofNat 64 n by ring]
    exact if_congr (by omega) rfl rfl
  constructor
  · intro hfaithful
    rw [Phdr.FirstPage, or_iff_not_imp_left]
    intro hne n hn hpage
    have hn' : n < ph.memsz.toNat := by omega
    have h1 := hfaithful n hn'
    rw [hbyte n hn', if_pos hn, if_neg] at h1
    · exact h1.symm
    · simp only [pageSize] at *
      omega
  · intro hfirst n hn
    rw [hbyte n hn]
    by_cases hfile : n < ph.filesz.toNat
    · rw [if_pos hfile]
      split_ifs with hpage
      · rfl
      · rcases hfirst with haligned | hzero
        · simp only [pageSize] at *
          omega
        · refine (hzero n hfile ?_).symm
          simp only [pageSize] at *
          omega
    · rw [if_neg hfile, if_neg fun hc => hfile hc.2]

end Legal

/-! ## The loops -/

section Laid

variable {img : Image} {ph : Phdr} {va : U64} {l : List (Phdr × U64)} {done : List U64}

theorem Phdr.Legal.page_user (L : ph.Legal img.len) (hva : va ∈ ph.pages) : va < userEnd := by
  have hpage := L.page_lt hva
  simp only [pageSize, stackBottom] at hpage
  rw [BitVec.lt_def, show userEnd.toNat = 2 ^ 47 from rfl]
  omega

/-- a page gets bytes that are there -/
theorem Phdr.Legal.bytes (L : ph.Legal img.len) (hbytes : img.Readable) (h1 : ph.vaddr.toNat ≤ va.toNat)
    (h2 : va.toNat < ph.vaddr.toNat + ph.filesz.toNat) : img.byte (ph.fileOff va) ≠ none := by
  have hinside := L.inside
  exact hbytes _ (BitVec.lt_def.2 (by rw [L.fileOff_inside h1 h2]; omega))

theorem Phdr.Legal.loaded_ne_none (L : ph.Legal img.len) (hbytes : img.Readable) (a : U64) :
    ph.loaded img a ≠ none := by
  rw [Phdr.loaded]
  split_ifs with h
  · exact L.bytes hbytes (h.1.trans (Nat.div_mul_le_self _ _)) h.2
  · exact Option.some_ne_none _

theorem imageByte_eq {img : Image} {off : U64} {j : ℕ} {b : BitVec 8}
    (h : img.byte (off + BitVec.ofNat 64 j) = some b) : Kern.imageByte img off j = b := by
  rw [Kern.imageByte, Image.get, h]
  rfl

/-- **One page** of a legal segment -/
theorem pageContents_legal (L : ph.Legal img.len) (hbytes : img.Readable) (hva : va ∈ ph.pages) (c : Kern.Contents)
    (x : UserAddr) : pageContents img (ph, va) c x =
      if x.1.toNat / pageSize = va.toNat / pageSize then ph.loaded img x.1 else c x := by
  have hpage := L.page_lt hva
  have halign := page_aligned hva
  simp only [pageSize, stackBottom] at hpage halign
  unfold pageContents
  rw [if_congr (L.copied_iff hva) rfl rfl]
  dsimp only
  split_ifs with hcopy hin hin
  · rw [L.copyLen_eq hcopy.1 hcopy.2, Kern.patch, if_pos hin, Phdr.loaded]
    by_cases hspan : Kern.Span va.toNat (min pageSize (ph.vaddr.toNat + ph.filesz.toNat - va.toNat)) x
    · have hle := hspan.1
      have hlt := hspan.2
      have hsum : ph.fileOff va + BitVec.ofNat 64 (x.1.toNat - va.toNat) = ph.fileOff x.1 := by
        rw [show BitVec.ofNat 64 (x.1.toNat - va.toNat) = x.1 - va from
          BitVec.eq_of_toNat_eq (by rw [BitVec.toNat_sub_of_le (BitVec.le_def.2 hle), BitVec.toNat_ofNat]; omega),
          Phdr.fileOff, Phdr.fileOff]
        ring
      obtain ⟨b, hb⟩ := Option.ne_none_iff_exists'.1 (@Phdr.Legal.bytes img ph x.1 L hbytes (by omega) (by omega))
      rw [if_pos hspan, imageByte_eq (hsum ▸ hb), if_pos, ← hb, Phdr.fileOff]
      simp only [pageSize] at *
      omega
    · rw [if_neg hspan, if_neg]
      simp only [Kern.Span, pageSize] at *
      omega
  · rw [L.copyLen_eq hcopy.1 hcopy.2, Kern.patch, if_neg, if_neg hin]
    rintro ⟨h1, h2⟩
    simp only [pageSize] at *
    omega
  · dsimp only
    rw [if_pos hin, Phdr.loaded, if_neg]
    simp only [pageSize] at *
    omega
  · exact if_neg hin

/-- **All pages** of legal segments -/
theorem targetContents_legal (hbytes : img.Readable) (hl : ∀ p ∈ l, p.1.Legal img.len ∧ p.2 ∈ p.1.pages)
    (hdist : l.Pairwise fun p q => p.2 ≠ q.2) (c : Kern.Contents) (x : UserAddr) :
    (∀ p ∈ l, x.1.toNat / pageSize = p.2.toNat / pageSize → targetContents img l c x = p.1.loaded img x.1) ∧
      ((∀ p ∈ l, x.1.toNat / pageSize ≠ p.2.toNat / pageSize) → targetContents img l c x = c x) := by
  induction l generalizing c with
  | nil => exact ⟨fun p hp => absurd hp not_mem_nil, fun _ => rfl⟩
  | cons p l ih =>
    obtain ⟨⟨L, hva⟩, hl⟩ := forall_mem_cons.1 hl
    obtain ⟨hp, hdist⟩ := pairwise_cons.1 hdist
    obtain ⟨hin, hout⟩ := ih hl hdist (pageContents img p c)
    have hpage := pageContents_legal L hbytes hva c x
    refine ⟨forall_mem_cons.2 ⟨fun hx => ?_, hin⟩, fun h => ?_⟩
    · refine (hout fun q hq hc => hp q hq ?_).trans (hpage.trans (if_pos hx))
      exact page_ext hva (hl q hq).2 (hx.symm.trans hc)
    · obtain ⟨h1, h2⟩ := forall_mem_cons.1 h
      exact (hout h2).trans (hpage.trans (if_neg h1))

/-- pages of legal segments, all different, can be loaded -/
theorem fits_legal (hbytes : img.Readable) (hl : ∀ p ∈ l, p.1.Legal img.len ∧ p.2 ∈ p.1.pages)
    (hdist : l.Pairwise fun p q => p.2 ≠ q.2) (hdone : ∀ p ∈ l, ¬ Kern.Covered done p.2) : Fits img done l := by
  induction l generalizing done with
  | nil => trivial
  | cons p l ih =>
    obtain ⟨⟨L, hva⟩, hl⟩ := forall_mem_cons.1 hl
    obtain ⟨hp, hdist⟩ := pairwise_cons.1 hdist
    obtain ⟨hpd, hdone⟩ := forall_mem_cons.1 hdone
    have halign := page_aligned hva
    have hlt := L.page_lt hva
    rw [pageSize, stackBottom] at hlt
    refine ⟨⟨hpd, fun hcopy => ?_⟩, ih hl hdist fun q hq hc => ?_⟩
    · obtain ⟨h1, h2⟩ := (L.copied_iff hva).1 hcopy
      rw [L.copyLen_eq h1 h2]
      refine Kern.copies_page ⟨_, mem_cons_self, rfl⟩ (by rw [pageSize]; omega) halign (Nat.min_le_left _ _)
        fun j hj => ?_
      have hsum : (p.2 + BitVec.ofNat 64 j).toNat = p.2.toNat + j := by
        rw [pageSize] at hj
        rw [BitVec.toNat_add, BitVec.toNat_ofNat]
        omega
      have hbyte := L.bytes hbytes (show p.1.vaddr.toNat ≤ (p.2 + BitVec.ofNat 64 j).toNat by omega) (by omega)
      rwa [Phdr.fileOff, show p.2 + BitVec.ofNat 64 j - p.1.vaddr = p.2 - p.1.vaddr + BitVec.ofNat 64 j by ring,
        ← BitVec.add_assoc] at hbyte
    · rcases Kern.covered_cons.1 hc with hpage | hc
      · obtain ⟨L', hva'⟩ := hl q hq
        have hlt' := L'.page_lt hva'
        rw [pageSize, stackBottom] at hlt'
        rw [Kern.vpage_user (by omega), Kern.vpage_user (by omega)] at hpage
        exact hp q hq (page_ext hva hva' hpage.symm)
      · exact hdone q hq hc

end Laid

/-- the pages of the segments `is` -/
def pageCount (img : Image) (eh : Ehdr) (is : List ℕ) : ℕ :=
  (is.map fun i => match segment img eh i with
    | .ok (some ph) => ph.pages.length
    | _ => 0).sum

theorem pageCount_eq (img : Image) (eh : Ehdr) (is : List ℕ) :
    pageCount img eh is = (targets (segments img eh is)).length := by
  induction is with
  | nil => rfl
  | cons i is ih =>
    rw [pageCount, map_cons, sum_cons, show (is.map _).sum = _ from ih]
    conv_rhs => rw [segments, filterMap_cons]
    cases segment img eh i with
    | error e => exact Nat.zero_add _
    | ok o =>
      cases o with
      | none => exact Nat.zero_add _
      | some ph =>
        dsimp only
        rw [targets, targets, flatMap_cons, length_append, length_map]
        rfl

/-! ## The file -/

section File

variable {img : Image} {eh : Ehdr} {size : ℕ} {k : Kern} {t : Load}

/-- the headers are where the loader reads them: entries of 56 bytes, or one entry, or copies of them -/
def SameTable (img : Image) (eh : Ehdr) (size : ℕ) : Prop :=
  ∀ i < eh.phnum, segment img eh i = entry img eh size i

/-- every segment of the file is in memory as it should be -/
def FaithfulLoad (img : Image) (eh : Ehdr) (size : ℕ) (m : PhysMem) (root : ℕ) : Prop :=
  ∀ i < eh.phnum, ∀ ph, entry img eh size i = .ok (some ph) → ph.Faithful img m root

/-- no segment has anything to load into a page that starts before it -/
def FirstPages (img : Image) (eh : Ehdr) (size : ℕ) : Prop :=
  ∀ i < eh.phnum, ∀ ph, entry img eh size i = .ok (some ph) → ph.FirstPage img

theorem WellFormed.target (W : WellFormed img eh size) (htable : SameTable img eh size) {p : Phdr × U64}
    (hp : p ∈ fileTargets img eh) : p.1.Legal img.len ∧ p.2 ∈ p.1.pages := by
  obtain ⟨⟨i, hi, hseg⟩, hva⟩ := mem_fileTargets.1 hp
  exact ⟨W.legal i hi p.1 ((htable i hi).symm.trans hseg), hva⟩

/-- the pages of the file are different -/
theorem WellFormed.distinct (W : WellFormed img eh size) (htable : SameTable img eh size) :
    (fileTargets img eh).Pairwise fun p q => p.2 ≠ q.2 := by
  rw [fileTargets, targets, pairwise_flatMap]
  refine ⟨fun ph _ =>
    pairwise_map.2 ((pages_distinct ph).imp fun h hc => h (congrArg (fun a : U64 => a.toNat / pageSize) hc)), ?_⟩
  rw [segments, pairwise_filterMap]
  refine List.Pairwise.imp_of_mem ?_ nodup_range
  intro i j hi hj hne ph hph ph' hph' p hp q hq (hpq : p.2 = q.2)
  have hseg : ∀ n ∈ List.range eh.phnum, ∀ ph ∈ segments img eh [n], entry img eh size n = .ok (some ph) := by
    intro n hn ph h
    obtain ⟨i, hi, h⟩ := mem_segments.1 h
    rwa [mem_singleton.1 hi, htable n (mem_range.1 hn)] at h
  obtain ⟨va, hva, rfl⟩ := mem_map.1 hp
  obtain ⟨va', hva', rfl⟩ := mem_map.1 hq
  dsimp only at hpq
  subst hpq
  have hph := hseg i hi ph (mem_filterMap.2 ⟨i, mem_singleton_self i, hph⟩)
  have hph' := hseg j hj ph' (mem_filterMap.2 ⟨j, mem_singleton_self j, hph'⟩)
  exact W.disjoint i (mem_range.1 hi) j (mem_range.1 hj) hne ph ph' hph hph' hva hva'

/-- a file that follows the rules can be loaded -/
theorem WellFormed.loadable (W : WellFormed img eh size) (hheader : header img = .ok (some eh))
    (hsize : img.field 2 54#64 = .ok size) (htable : SameTable img eh size) : Loadable img eh := by
  obtain ⟨-, size', hsize', hwide, -, -⟩ := header_accepted hheader
  obtain rfl : size' = size := Except.ok.inj (hsize'.symm.trans hsize)
  have htab := W.table
  have hlt := img.len.isLt
  refine ⟨fun i hi => ?_, fits_legal W.bytes (fun p hp => W.target htable hp) (W.distinct htable) fun p _ hc => ?_⟩
  · have hrow : i * phdrSize + phdrSize ≤ eh.phnum * size' := by
      calc i * phdrSize + phdrSize = (i + 1) * phdrSize := by ring
        _ ≤ eh.phnum * size' := Nat.mul_le_mul (mem_range.1 hi) hwide
    have hbase : (eh.phoff + BitVec.ofNat 64 (i * phdrSize)).toNat = eh.phoff.toNat + i * phdrSize := by
      rw [BitVec.toNat_add, BitVec.toNat_ofNat, Nat.mod_eq_of_lt (show i * phdrSize < 2 ^ 64 by omega),
        Nat.mod_eq_of_lt (by omega)]
    exact segment_ok W.bytes hbase (by omega)
  · obtain ⟨va, hva, -⟩ := hc
    exact absurd hva not_mem_nil

/-- a file all of whose pages were loaded -/
theorem WellFormed.faithful_iff (W : WellFormed img eh size) (h : k.FreshSpace) (htable : SameTable img eh size)
    (hrun : loadTargets img (fileTargets img eh) ⟨k, []⟩ = .ok (true, t)) :
    FaithfulLoad img eh size t.kern.mem k.pml4 ↔ FirstPages img eh size := by
  have hseen := loadTargets_seen (s := ⟨k, []⟩)
    (fun p hp => (W.target htable hp).1.page_user (W.target htable hp).2) h.seen h.cr3 hrun
  have hread := targetContents_legal W.bytes (fun p hp => W.target htable hp) (W.distinct htable) fun _ => none
  generalize targetContents img (fileTargets img eh) (fun _ => none) = c at hseen hread
  refine forall₂_congr fun i hi => forall₂_congr fun ph hph => ?_
  have L := W.legal i hi ph hph
  refine L.faithful_iff fun a ⟨va, hva, hpage⟩ => ?_
  have hvalt := L.page_lt hva
  have ha : a < 0x0000800000000000#64 := by
    rw [BitVec.lt_def, BitVec.toNat_ofNat]
    simp only [pageSize, stackBottom] at hpage hvalt
    omega
  have hbyte := (hread ⟨a, ha⟩).1 (ph, va) (mem_fileTargets.2 ⟨⟨i, hi, (htable i hi).trans hph⟩, hva⟩) hpage
  obtain ⟨b, hb⟩ := Option.ne_none_iff_exists'.1 (L.loaded_ne_none W.bytes a)
  rw [hb]
  exact hseen.byte (x := ⟨a, ha⟩) (hbyte.trans hb)

/-- **ELF segments in memory.** A file that follows the rules, with its headers where the loader reads them, is loaded
if there are enough pages. Its segments then hold the bytes of the file followed by zeros just if every segment starts
with a page or has only zeros for its first page; and so they do whenever an entry point is returned. -/
theorem elf_load_faithful (img : Image) (k : Kern) (eh : Ehdr) (size : ℕ) (h : k.FreshSpace)
    (hheader : header img = .ok (some eh)) (hsize : img.field 2 54#64 = .ok size) (W : WellFormed img eh size)
    (htable : SameTable img eh size) :
    (4 * pageCount img eh (List.range eh.phnum) ≤ k.pmm.freeSet.card → ∃ start s, img.field 8 24#64 = .ok start ∧
      elfLoad img k = .ok (BitVec.ofNat 64 start, s) ∧
      (FaithfulLoad img eh size s.kern.mem k.pml4 ↔ FirstPages img eh size)) ∧
    ∀ start s, elfLoad img k = .ok (start, s) → start ≠ 0 →
      (FaithfulLoad img eh size s.kern.mem k.pml4 ↔ FirstPages img eh size) := by
  have huser : UserSegments img := by
    intro eh' heh' i hi ph hph
    obtain rfl : eh' = eh := Option.some.inj (Except.ok.inj (heh'.symm.trans hheader))
    have L := W.legal i hi ph ((htable i hi).symm.trans hph)
    have hbelow : ph.vaddr.toNat + ph.memsz.toNat ≤ 0x7C0000 := L.below
    intro _
    rw [BitVec.le_def, L.stop, show userEnd.toNat = 2 ^ 47 from rfl, pageSize]
    omega
  constructor
  · intro hroom
    have hfew : Kern.cost .fresh (imagePages img eh).reverse ≤ k.pmm.freeSet.card := by
      refine (Kern.cost_le _).trans (le_trans (le_of_eq ?_) hroom)
      rw [length_reverse, imagePages, length_map, pageCount_eq]
      rfl
    have hstart := @field_ok img W.bytes 8 24#64 (le_trans (by decide) (header_len hheader))
    obtain ⟨⟨entry, s⟩, hrun, hcase⟩ := (elfLoad_account h huser hheader).exists_ok fun e he =>
      absurd (he.2 (W.loadable hheader hsize htable) hstart) (by omega)
    obtain ⟨-, -, start, hn, rfl⟩ := hcase.resolve_left fun hc => absurd hc.2 (by omega)
    obtain ⟨d, hload, -⟩ := elfLoad_targets hrun hheader
    refine ⟨start, s, hn, hrun, ?_⟩
    cases d with
    | true => exact W.faithful_iff h htable hload
    | false =>
      -- the loop stops early only where pages are missing
      have hshort := (loadTargets_account h.stockedFresh Kern.lowerHalf_nodup h.cr3 (fun p hp =>
        Kern.within_user ((W.target htable hp).1.page_user (W.target htable hp).2))).of_eq hload |>.2 rfl
      rw [show after [] (fileTargets img eh) = (imagePages img eh).reverse from append_nil _] at hshort
      rcases hshort with hc | ⟨⟨p, -, -, hc⟩, -⟩
      · omega
      · exact absurd hc Kern.not_spills_fresh
  · intro start s hrun hne
    obtain ⟨d, hload, hd⟩ := elfLoad_targets hrun hheader
    rw [hd hne] at hload
    exact W.faithful_iff h htable hload

end File

/-! ### Files with one segment -/

/-- a file whose headers are 64 bytes long: an empty one and one for a byte at `0x400000` -/
def wideFile : List (BitVec 8) :=
  [0x7F#8, 0x45#8, 0x4C#8, 0x46#8, 2#8, 1#8, 1#8] ++ leBytes 9 0 ++ leBytes 2 2 ++ leBytes 2 0x3E ++ leBytes 4 1 ++
    leBytes 8 0x400000 ++ leBytes 8 64 ++ leBytes 8 0 ++ leBytes 4 0 ++ leBytes 2 64 ++ leBytes 2 64 ++ leBytes 2 2 ++
    leBytes 6 0 ++ leBytes 64 0 ++
    (leBytes 4 1 ++ leBytes 4 6 ++ leBytes 8 0 ++ leBytes 8 0x400000 ++ leBytes 8 0 ++ leBytes 8 1 ++ leBytes 8 1 ++
      leBytes 8 4096 ++ leBytes 8 0)

def wideImage : Image := ⟨192, fun off => if off.toNat < 192 then some (wideFile.getD off.toNat 0) else none⟩

/-- the entry point, and the byte at `va` -/
def loadByte (img : Image) (va : U64) : Option (U64 × Option (BitVec 8)) :=
  match elfLoad img SpaceSet.bootKern with
  | .ok (start, s) => some (start, userByte s.kern.mem SpaceSet.bootKern.pml4 va)
  | .error _ => none

theorem loadByte_ok {img : Image} {va start : U64} {b : Option (BitVec 8)} (h : loadByte img va = some (start, b)) :
    ∃ s, elfLoad img SpaceSet.bootKern = .ok (start, s) ∧ userByte s.kern.mem SpaceSet.bootKern.pml4 va = b := by
  unfold loadByte at h
  cases hrun : elfLoad img SpaceSet.bootKern with
  | error e =>
    rw [hrun] at h
    cases h
  | ok p =>
    rw [hrun, Option.some.injEq, Prod.mk.injEq] at h
    rw [← h.1, ← h.2]
    exact ⟨p.2, rfl, rfl⟩

theorem segmentImage_wellFormed {offset vaddr filesz memsz : ℕ} {ph : Phdr}
    (hseg : segment (segmentImage offset vaddr filesz memsz) ⟨64, 1⟩ 0 = .ok (some ph)) (L : ph.Legal 120) :
    WellFormed (segmentImage offset vaddr filesz memsz) ⟨64, 1⟩ 56 where
  bytes := segmentImage_bytes _ _ _ _
  table := show 64 + 1 * 56 ≤ (120 : U64).toNat by decide
  legal i hi ph' hph' := by
    obtain rfl : i = 0 := Nat.lt_one_iff.1 hi
    rw [show entry _ _ 56 0 = _ from hseg, Except.ok.injEq, Option.some.injEq] at hph'
    exact hph' ▸ L
  disjoint i hi j hj hne := absurd ((Nat.lt_one_iff.1 hi).trans (Nat.lt_one_iff.1 hj).symm) hne

theorem wideImage_entries : entry wideImage ⟨64, 2⟩ 64 0 = .ok none ∧
    entry wideImage ⟨64, 2⟩ 64 1 = .ok (some ⟨0, 0x400000#64, 1, 1⟩) := by decide +kernel

theorem wideImage_wellFormed : WellFormed wideImage ⟨64, 2⟩ 64 where
  bytes off hoff := by
    have hlt : off.toNat < 192 := BitVec.lt_def.1 hoff
    change (if off.toNat < 192 then _ else none) ≠ none
    rw [if_pos hlt]
    exact Option.some_ne_none _
  table := by decide
  legal i hi ph hph := by
    obtain rfl | rfl : i = 0 ∨ i = 1 := by change i < 2 at hi; omega
    · rw [wideImage_entries.1] at hph
      cases hph
    · rw [wideImage_entries.2, Except.ok.injEq, Option.some.injEq] at hph
      subst hph
      exact ⟨by decide, by decide, by decide, by decide⟩
  disjoint i hi j hj hne ph ph' hph hph' := by
    change i < 2 at hi
    change j < 2 at hj
    obtain rfl | rfl : i = 0 ∨ j = 0 := by omega
    · rw [wideImage_entries.1] at hph
      cases hph
    · rw [wideImage_entries.1] at hph'
      cases hph'

/-- the file follows the rules, there is memory for it, and it is not loaded as it should be -/
def Misloaded (img : Image) : Prop := ∃ k eh size start s, k.FreshSpace ∧
  header img = .ok (some eh) ∧ img.field 2 54#64 = .ok size ∧ WellFormed img eh size ∧
  4 * pageCount img eh (List.range eh.phnum) ≤ k.pmm.freeSet.card ∧ elfLoad img k = .ok (start, s) ∧ start ≠ 0 ∧
  ¬ FaithfulLoad img eh size s.kern.mem k.pml4

/-- **Two files that are misloaded**: one with a byte at 0x400001, which stays zero, and one with headers of 64 bytes,
of which the second is not seen. -/
theorem elf_load_drops_first_page : Misloaded (segmentImage 1 0x400001 1 1) ∧ Misloaded wideImage := by
  refine ⟨?_, ?_⟩
  · have hseg : segment (segmentImage 1 0x400001 1 1) ⟨64, 1⟩ 0 = .ok (some ⟨1, 0x400001#64, 1, 1⟩) := by decide +kernel
    obtain ⟨s, hrun, hbyte⟩ :=
      @loadByte_ok (segmentImage 1 0x400001 1 1) 0x400001#64 0x400000#64 (some 0) (by decide +kernel)
    refine ⟨_, ⟨64, 1⟩, 56, _, s, bootKern_fresh, by decide +kernel, by decide +kernel,
      segmentImage_wellFormed hseg ⟨by decide, by decide, by decide, by decide⟩, ?_, hrun, by decide, fun hc => ?_⟩
    · rw [SpaceSet.bootKern_free, Nat.card_Ico]
      decide +kernel
    · have h0 := hc 0 (by decide) _ hseg 0 (by decide)
      rw [show (0x400001#64 : U64) + BitVec.ofNat 64 0 = 0x400001#64 from rfl, hbyte] at h0
      exact absurd h0 (by decide +kernel)
  · obtain ⟨s, hrun, hbyte⟩ := @loadByte_ok wideImage 0x400000#64 0x400000#64 none (by decide +kernel)
    refine ⟨_, ⟨64, 2⟩, 64, _, s, bootKern_fresh, by decide +kernel, by decide +kernel, wideImage_wellFormed, ?_, hrun,
      by decide, fun hc => ?_⟩
    · rw [SpaceSet.bootKern_free, Nat.card_Ico]
      decide +kernel
    · have h0 := hc 1 (by decide) _ wideImage_entries.2 0 (by decide)
      rw [show (0x400000#64 : U64) + BitVec.ofNat 64 0 = 0x400000#64 from rfl, hbyte] at h0
      exact absurd h0 (by decide +kernel)

/-- a byte at 0x400000 -/
theorem elf_load_aligned_byte : ∃ start s, elfLoad (segmentImage 0 0x400000 1 1) SpaceSet.bootKern = .ok (start, s) ∧
    FaithfulLoad (segmentImage 0 0x400000 1 1) ⟨64, 1⟩ 56 s.kern.mem SpaceSet.bootKern.pml4 := by
  have hseg : segment (segmentImage 0 0x400000 1 1) ⟨64, 1⟩ 0 = .ok (some ⟨0, 0x400000#64, 1, 1⟩) := by decide +kernel
  obtain ⟨start, s, -, hrun, hfaithful⟩ := (elf_load_faithful (segmentImage 0 0x400000 1 1) SpaceSet.bootKern ⟨64, 1⟩ 56
    bootKern_fresh (by decide +kernel) (by decide +kernel)
    (segmentImage_wellFormed hseg ⟨by decide, by decide, by decide, by decide⟩) fun _ _ => rfl).1 (by
      rw [SpaceSet.bootKern_free, Nat.card_Ico]
      decide +kernel)
  refine ⟨_, s, hrun, hfaithful.2 fun i hi ph hph => .inl ?_⟩
  obtain rfl : i = 0 := Nat.lt_one_iff.1 hi
  rw [show entry _ _ 56 0 = _ from hseg, Except.ok.injEq, Option.some.injEq] at hph
  subst hph
  decide

end Elf

end Uix
