/-
Flat images. `user_task_create` and the flat branch of `do_execve` have a loop each over the pages of the image and of
the stack; they are the same in the model, and so is what a program finds in memory.

- `FreshSpace.flatSpace`: the pages that are mapped, the frames behind them and the bytes of the image.
- `flat_images_agree`: both launch paths end in such a space.
-/
import Uix.Cpu.ExecFiles
import Uix.Memory.Translate

namespace Uix

open Machine Radix Radix.Format List Function
open Pmm (pageIdx pageAddr)

/-- the image is the byte string `code` -/
structure Image.Is (img : Image) (code : List (BitVec 8)) : Prop where
  len : img.len.toNat = code.length
  byte : ∀ j b, code[j]? = some b → img.byte (BitVec.ofNat 64 j) = some b

theorem Image.Is.readable {img : Image} {code : List (BitVec 8)} (h : img.Is code) : img.Readable := fun off hoff => by
  have hlt : off.toNat < code.length := by
    rw [← h.len]
    exact BitVec.lt_def.1 hoff
  have hbyte := h.byte off.toNat _ (List.getElem?_eq_getElem hlt)
  rw [BitVec.ofNat_toNat, BitVec.setWidth_eq] at hbyte
  rw [hbyte]
  exact Option.some_ne_none _

/-- the space of a program `code`: the pages from `USER_CODE_BASE` on and those below `USER_STACK_TOP`, each with a
frame of its own, and the program in them -/
structure FlatSpace (m : PhysMem) (root : ℕ) (code : List (BitVec 8)) : Prop where
  pages : ∀ a : UserAddr, userByte m root a.1 ≠ none ↔
    (0x400 ≤ a.1.toNat / pageSize ∧ a.1.toNat / pageSize < 0x400 + (code.length + pageSize - 1) / pageSize) ∨
    (0x7C0 ≤ a.1.toNat / pageSize ∧ a.1.toNat / pageSize < 0x800)
  distinct : ∀ (a b : UserAddr) (p q : ℕ), mmuTranslate m root a.1 = some p → mmuTranslate m root b.1 = some q →
    p / pageSize = q / pageSize → a.1.toNat / pageSize = b.1.toNat / pageSize
  bytes : ∀ j b, code[j]? = some b → userByte m root (userCodeBase + BitVec.ofNat 64 j) = some b

namespace Kern

variable {k₀ k k' : Kern} {S : Finset ℕ} {va : UserAddr} {img : Image} {code : List (BitVec 8)}

/-- an address in the image -/
theorem codeAddr_user {j : ℕ} (hsize : img.len.toNat + 0x400000 ≤ 2 ^ 47) (hj : j < img.len.toNat) :
    (userCodeBase + BitVec.ofNat 64 j).toNat = j + 0x400000 ∧
    userCodeBase + BitVec.ofNat 64 j < 0x0000800000000000#64 := by
  have haddr := @codeAddr j (by omega)
  refine ⟨haddr, BitVec.lt_def.2 ?_⟩
  rw [haddr, BitVec.toNat_ofNat]
  omega

/-! ## The space of a flat image -/

/-- different pages of a space being filled have different frames -/
theorem Filling.frames_apart (F : Filling k₀ k S) (a b : UserAddr) {p q : ℕ}
    (hp : mmuTranslate k.mem k₀.pml4 a.1 = some p)
    (hq : mmuTranslate k.mem k₀.pml4 b.1 = some q) (h : p / pageSize = q / pageSize) :
    a.1.toNat / pageSize = b.1.toNat / pageSize := by
  have hr := mem_singleton_self k₀.pml4
  rw [F.spaces.translate hr, Option.map_eq_some_iff] at hp hq
  obtain ⟨e, he, rfl⟩ := hp
  obtain ⟨e', he', rfl⟩ := hq
  have hframe : frame e.2 = frame e'.2 := by
    rw [pageSize] at h
    omega
  refine (samePage_iff a b).1 fun j hj => ?_
  obtain ⟨e, rfl, -⟩ := F.spaces.walk_plain hr a.lower he
  obtain ⟨e', rfl, -⟩ := F.spaces.walk_plain hr b.lower he'
  exact walk_unique (φ := fun p => frame p.2) (F.spaces.own _ hr) a.lower b.lower he he' hframe j (Nat.zero_le j) hj

theorem covered_range {f : ℕ → U64} {n : ℕ} (page : ℕ → ℕ) (hf : ∀ i < n, vpage (f i) = page i) (a : U64) :
    Covered ((List.range n).map f).reverse a ↔ ∃ i < n, vpage a = page i := by
  constructor
  · rintro ⟨va, hva, hp⟩
    obtain ⟨i, hi, rfl⟩ := mem_map.1 (mem_reverse.1 hva)
    have hi := mem_range.1 hi
    exact ⟨i, hi, hp.trans (hf i hi)⟩
  · rintro ⟨i, hi, hp⟩
    exact ⟨f i, mem_reverse.2 (mem_map_of_mem (mem_range.2 hi)), hp.trans (hf i hi).symm⟩

theorem covered_flat {len : U64} (hsize : len.toNat + 0x400000 ≤ 2 ^ 47) (a : U64) : Covered (flatPages len).reverse a ↔
    0x400 ≤ vpage a ∧ vpage a < 0x400 + (len.toNat + pageSize - 1) / pageSize := by
  have hpage : ∀ i < (len.toNat + pageSize - 1) / pageSize,
      vpage (((fun off => userCodeBase + BitVec.ofNat 64 off) ∘ (· * pageSize)) i) = 1024 + i := fun i hi => by
    refine flatPage_page ?_
    rw [pageSize] at hi ⊢
    omega
  rw [flatPages, flatOffsets, map_map, covered_range (fun i => 1024 + i) hpage]
  constructor
  · rintro ⟨i, hi, hp⟩
    omega
  · rintro ⟨h1, h2⟩
    exact ⟨vpage a - 1024, by omega, by omega⟩

theorem covered_stackPages (a : U64) : Covered stackPages.reverse a ↔ 0x7C0 ≤ vpage a ∧ vpage a < 0x800 := by
  rw [stackPages, covered_range (fun i => 2047 - i) fun i hi => stackPage_page hi]
  constructor
  · rintro ⟨i, hi, hp⟩
    omega
  · rintro ⟨h1, h2⟩
    exact ⟨2047 - vpage a, by omega, by omega⟩

theorem covered_append {l m : List U64} {a : U64} : Covered (l ++ m) a ↔ Covered l a ∨ Covered m a := by
  simp only [Covered, mem_append, or_and_right, exists_or]

/-- the stack can be read -/
theorem Stocked.stack_read {done : List U64} (h : Stocked lowerHalf .fresh k₀ k (stackPages.reverse ++ done))
    (F : Filling k₀ k S) (a : UserAddr) (h1 : 0x7C0000 ≤ a.1.toNat) (h2 : a.1.toNat < 0x800000) :
    userByte k.mem k₀.pml4 a.1 ≠ none := by
  rw [ne_eq, F.view_eq_none, ← ne_eq, h.mapped a.1 a.lower]
  refine .inr (covered_append.2 (.inl ((covered_stackPages a.1).2 ?_)))
  rw [vpage_user (BitVec.lt_def.1 a.2), pageSize]
  omega

/-- the pages for the image, the stack and their tables -/
def flatCost (len : U64) : ℕ := cost .fresh (stackPages.reverse ++ (flatPages len).reverse)

/-- **A flat image and its stack in a new space.** -/
theorem FreshSpace.flatSpace (h : k.FreshSpace) (himg : img.Is code) (hsize : code.length ≤ 0x3C0000)
    (hroom : flatCost img.len ≤ k.pmm.freeSet.card) :
    ∃ k', (loadFlat img k >>= mapStack) = .ok k' ∧ FlatSpace k'.mem k.pml4 code := by
  have hlen := himg.len
  have hbytes := himg.readable
  have hsmall : img.len.toNat + 0x400000 ≤ 2 ^ 47 := by omega
  have hstop : pagesStop .fresh k.pmm.freeSet.card [] (flatPages img.len ++ stackPages) = none := by
    rw [pagesStop_none (cost_nil_le _), append_nil, reverse_append, flat_apart hsmall]
    exact ⟨by omega, hroom⟩
  obtain ⟨k', hrun, hs⟩ := (h.flat hsmall hbytes).ok hstop
  refine ⟨k', hrun, ?_⟩
  obtain ⟨k1, hload, hmap⟩ := bind_ok.1 hrun
  have W := ((h.seen.loadFlat h.cr3 hsmall).of_eq hload).mapStack.of_eq hmap
  obtain ⟨S2, F2⟩ := W.fill
  refine ⟨fun a => ?_, fun a b p q hp hq hpq => F2.frames_apart a b hp hq hpq, fun j b hb => ?_⟩
  · rw [ne_eq, F2.view_eq_none, ← ne_eq, hs.mapped a.1 a.lower,
      or_iff_right (show ¬ Base.fresh.taken a.1 from not_false),
      covered_append, covered_stackPages, covered_flat hsmall, hlen, vpage_user (BitVec.lt_def.1 a.2)]
    exact or_comm
  · obtain ⟨hj, -⟩ := List.getElem?_eq_some_iff.1 hb
    obtain ⟨haddr, huser⟩ := codeAddr_user hsmall (show j < img.len.toNat by omega)
    refine W.byte (x := ⟨_, huser⟩) ?_
    dsimp only [patch]
    rw [if_pos ⟨by rw [haddr, show userCodeBase.toNat = 0x400000 from rfl]; omega, by
      rw [haddr, show userCodeBase.toNat = 0x400000 from rfl]; omega⟩, haddr,
        show userCodeBase.toNat = 0x400000 from rfl,
      Nat.add_sub_cancel]
    exact congrArg some
      (Elf.imageByte_eq (by rw [show (0 : U64) + _ = _ from BitVec.zero_add _]; exact himg.byte j b hb))

/-- `user_task_create` -/
theorem userTaskImage_flatSpace (hk : k.pmm.Ok) (hphys : k.pmm.bitmapLen ≤ 2 ^ 40) (himg : img.Is code)
    (hsize : code.length ≤ 0x3C0000) (hroom : flatCost img.len + 1 ≤ k.pmm.freeSet.card) :
    ∃ cr3 k', userTaskImage img k = .ok (cr3, k') ∧ FlatSpace k'.mem (pageIdx cr3) code := by
  obtain ⟨⟨cr3, k1⟩, hcreate, d, hcr3, C⟩ := (vmmCreateSpace_spec hk).exists_ok fun st hst => by
    rw [hst.2, Finset.card_empty] at hroom
    omega
  dsimp only at hcr3 C
  subst hcr3
  obtain ⟨hfresh, hroot⟩ := C.freshSpace hphys
  have hcard : (k1.vmmSwitch (pageAddr d)).pmm.freeSet.card + 1 = k.pmm.freeSet.card := card_of_taken C.takes
  obtain ⟨k2, hrun, hflat⟩ := hfresh.flatSpace himg hsize (by omega)
  obtain ⟨k3, hload, hmap⟩ := bind_ok.1 hrun
  refine ⟨pageAddr d, k2.vmmSwitch k2.kernelCr3, ?_, ?_⟩
  · unfold userTaskImage
    simp only [hcreate, ok_bind, hload, hmap]
    rfl
  · rw [show pageIdx (pageAddr d) = (k1.vmmSwitch (pageAddr d)).pml4 from rfl]
    exact hflat

end Kern

namespace Exec

variable {img : Image} {code : List (BitVec 8)}

/-- the magic number that `do_execve` looks for -/
def magic : List (BitVec 8) := [0x7F, 0x45]

theorem isElf_of_is (himg : img.Is code) (h : ¬ magic <+: code) : isElf img = .ok false := by
  unfold isElf
  split_ifs with hlen
  · rfl
  obtain ⟨b0, b1, rest, rfl⟩ : ∃ b0 b1 rest, code = b0 :: b1 :: rest := by
    rw [himg.len] at hlen
    rcases code with _ | ⟨b0, _ | ⟨b1, rest⟩⟩
    · simp at hlen
    · simp at hlen
    · exact ⟨b0, b1, rest, rfl⟩
  have h0 : img.get 0 = .ok b0 := by
    rw [Image.get, show (0 : U64) = BitVec.ofNat 64 0 from rfl, himg.byte 0 b0 rfl]
    rfl
  have h1 : img.get 1 = .ok b1 := by
    rw [Image.get, show (1 : U64) = BitVec.ofNat 64 1 from rfl, himg.byte 1 b1 rfl]
    rfl
  rw [h0, ok_bind]
  split_ifs with hb
  · rfl
  rw [h1, ok_bind]
  refine congrArg Except.ok (decide_eq_false fun hb1 => h ?_)
  rw [not_ne_iff.1 hb, hb1]
  exact ⟨rest, rfl⟩

/-- an image without that number has no header that `elf_load` accepts -/
theorem header_of_isElf {eh : Elf.Ehdr} (helf : isElf img = .ok false) : Elf.header img ≠ .ok (some eh) := by
  intro hheader
  unfold Elf.header at hheader
  split_ifs at hheader with hlen
  · cases hheader
  obtain ⟨ident, hident, hheader⟩ := bind_ok.1 hheader
  split_ifs at hheader with hid
  · cases hheader
  obtain rfl := not_ne_iff.1 hid
  rw [mapM_cons, mapM_cons] at hident
  obtain ⟨b0, h0, hident⟩ := bind_ok.1 hident
  obtain ⟨tail, htail, hident⟩ := bind_ok.1 hident
  obtain ⟨b1, h1, htail⟩ := bind_ok.1 htail
  obtain ⟨tail', -, htail⟩ := bind_ok.1 htail
  obtain rfl := pure_ok.1 htail
  have hcons := pure_ok.1 hident
  simp only [List.cons.injEq] at hcons
  obtain ⟨rfl, rfl, -⟩ := hcons
  rw [Elf.ehdrSize] at hlen
  rw [isElf, if_neg (by omega), show (0 : U64) = 0#64 from rfl, h0, ok_bind, if_neg (by decide),
    show (1 : U64) = 1#64 from rfl, h1, ok_bind] at helf
  exact absurd (pure_ok.1 helf) (by decide)

/-- `do_execve` of a flat image -/
theorem doExecve_flatSpace {env : ExecEnv} {upath trampoline : U64} {s s1 s2 : ExecState} (h : Caller s)
    (hf : Found env upath s img s1) (hnew : newSpace s1 = .ok s2) (himg : img.Is code) (hsize : code.length ≤ 0x3C0000)
    (helf : ¬ magic <+: code) (hroom : Kern.flatCost img.len ≤ s2.kern.pmm.freeSet.card) :
    ∃ s', doExecve env trampoline upath s = .ok (.launched userCodeBase (userStackTop - 16), s') ∧
      FlatSpace s'.kern.mem (pageIdx s'.task.cr3) code := by
  obtain ⟨copied, fromDisk, hcopy, hfind⟩ := hf
  have hnot := isElf_of_is himg helf
  have huser : UserImage img := by
    refine ⟨fun eh heh => absurd heh (header_of_isElf hnot), ?_⟩
    have := himg.len
    omega
  obtain ⟨s2', hnew', N, -, hok⟩ := @Caller.loaded env upath s s1 img fromDisk copied trampoline h hcopy hfind
  obtain rfl : s2' = s2 := Except.ok.inj (hnew'.symm.trans hnew)
  obtain ⟨k', hrun, hflat⟩ := N.fresh.flatSpace himg hsize hroom
  obtain ⟨k1, hload, hmap⟩ := bind_ok.1 hrun
  have himage : loadImage img (pathString env.stale copied) s2'.kern =
      .ok (some (userCodeBase, userStackTop - 16), k') := by
    unfold loadImage
    simp only [hnot, ok_bind, Bool.false_eq_true, if_false, hload, hmap]
    rfl
  obtain ⟨hheld, hk⟩ := N.held huser (pathString_length env.stale copied) himage
  obtain ⟨t, ht, hmem, hcr3⟩ := hok _ k' himage hheld hk
  refine ⟨t, ht, ?_⟩
  rwa [hmem, hcr3, N.task, Pmm.pageIdx_pageAddr (N.small.trans (by decide))]

/-- the four bytes of the file as they are found in its buffer -/
def fileBytes : Option (U64 × List (Option (BitVec 8))) :=
  match findProgram (fileEnv [1, 2, 3, 4]) [0x66] (fileState 4) with
  | .ok (some (img, _), _) => some (img.len, [img.byte 0, img.byte 1, img.byte 2, img.byte 3])
  | _ => none

theorem fourBytes_is {img : Image} (hlen : img.len = 4)
    (hbytes : [img.byte 0, img.byte 1, img.byte 2, img.byte 3] = [some 1, some 2, some 3, some 4]) :
    img.Is [1, 2, 3, 4] := by
  simp only [List.cons.injEq, and_true] at hbytes
  refine ⟨by rw [hlen]; rfl, fun j b hb => ?_⟩
  rcases j with _ | _ | _ | _ | j
  · exact hbytes.1.trans hb
  · exact hbytes.2.1.trans hb
  · exact hbytes.2.2.1.trans hb
  · exact hbytes.2.2.2.trans hb
  · simp at hb

/-- the file of four bytes, and the space made for it -/
theorem four_bytes_found : ∃ img s1 s2, Found (fileEnv [1, 2, 3, 4]) 0 (fileState 4) img s1 ∧ img.Is [1, 2, 3, 4] ∧
    img.len = 4 ∧ newSpace s1 = .ok s2 ∧ Kern.flatCost img.len ≤ s2.kern.pmm.freeSet.card ∧
    Kern.flatCost img.len + 1 ≤ 1000 := by
  have hg : glance [1, 2, 3, 4] 4 = some (1, some none, some false, 999) := by decide +kernel
  have hbytes : fileBytes = some (4, [some 1, some 2, some 3, some 4]) := by decide +kernel
  obtain ⟨⟨img, s1, hf⟩, -⟩ := glance_found hg
  obtain ⟨fromDisk, hfind⟩ := file_found.1 hf
  rw [fileBytes, hfind] at hbytes
  simp only [Option.some.injEq, Prod.mk.injEq] at hbytes
  have himg := fourBytes_is hbytes.1 hbytes.2
  have h1 := ((fileState_caller 4).found hfind).1
  obtain ⟨s2, d, hnew, -⟩ := newSpace_spec h1.live h1.cr3_ne_zero fun r hr => absurd hr List.not_mem_nil
  have hroom := glance_room hg (by decide) hf hnew
  rw [imageCost, filePages, isElf_of_is himg (by decide)] at hroom
  have hcost : Kern.flatCost 4 ≤ 260 := (Kern.cost_le _).trans (by decide)
  rw [← hbytes.1] at hcost
  exact ⟨img, s1, s2, hf, himg, hbytes.1, hnew, hroom, by omega⟩

end Exec

end Uix
