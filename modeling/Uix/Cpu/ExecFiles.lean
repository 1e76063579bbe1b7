/-
Program files on the disk. With enough pages, `do_execve` comes to an end for a file if the pages that it asks for are
all different and none of them is mapped in the kernel half: `vmm_map` panics over an entry that is there already, and
neither the loop over a flat image nor `elf_load` looks whether a page is taken, by another segment, by the stack or by
the kernel. Other files stop it, unless a copy goes on into memory of the kernel.

- `flat_apart`: a flat file stays below the stack exactly up to `0x3C0000` bytes.
- `header_ok`, `isElf_ok`: a file is never too short for what is read of its header.
- `KernelHalf.stocked`: the account of a new space with the kernel half in it.
- `loadImage_survives`: the load of a file.
- `program_file_survives`: `do_execve` of a file.
- `segment_in_stack_panics`: a file of 120 bytes with a segment at the top of the stack.
-/
import Uix.Cpu.ElfFaithful
import Uix.Cpu.ExecKernelHalf
import Uix.Cpu.Exhaustion

namespace Uix

open Machine Radix Radix.Format List Kern
open Pmm (pageIdx pageAddr)

namespace Kern

/-! ## Flat files -/

section Flat

theorem flatPage_page {i : ℕ} (h : i * pageSize + 0x400000 < 2 ^ 47) :
    vpage (userCodeBase + BitVec.ofNat 64 (i * pageSize)) = 1024 + i := by
  rw [vpage, codeAddr h]
  rw [pageSize] at h ⊢
  omega

/-- **A flat file and the stack.** Page 960 of the file would be the last page of the stack. -/
theorem flat_apart {len : U64} (hsize : len.toNat + 0x400000 ≤ 2 ^ 47) :
    Apart [] (flatPages len ++ stackPages) ↔ len.toNat ≤ 0x3C0000 := by
  have hpage : ∀ i < (len.toNat + pageSize - 1) / pageSize, i * pageSize + 0x400000 < 2 ^ 47 := fun i hi => by
    rw [pageSize] at hi ⊢
    omega
  have hempty : ∀ a ∈ flatPages len ++ stackPages, ¬ Covered [] a := by
    rintro a - ⟨va, hva, -⟩
    exact absurd hva not_mem_nil
  have hflat : (flatPages len).Pairwise fun a b => vpage a ≠ vpage b := by
    refine pairwise_map.2 (pairwise_map.2 (pairwise_lt_range.imp_of_mem fun {i j} hi hj hij => ?_))
    rw [flatPage_page (hpage i (mem_range.1 hi)), flatPage_page (hpage j (mem_range.1 hj))]
    omega
  rw [Apart, and_iff_left hempty, pairwise_append, and_iff_right hflat, and_iff_right stackPages_apart]
  simp only [flatPages, flatOffsets, stackPages, forall_mem_map, mem_range]
  constructor
  · intro h
    by_contra hlen
    have hin : 960 < (len.toNat + pageSize - 1) / pageSize := by
      rw [pageSize]
      omega
    refine h 960 hin 63 (by decide) ?_
    rw [flatPage_page (hpage 960 hin), stackPage_page (by decide)]
  · intro hlen i hi n hn
    rw [flatPage_page (hpage i hi), stackPage_page hn]
    rw [pageSize] at hi
    omega

end Flat

end Kern

/-! ## What is read of a file -/

section Read

variable {img : Image}

theorem Image.get_ok (hbytes : img.Readable) {off : U64} (h : off.toNat < img.len.toNat) :
    ∃ b, img.get off = .ok b := by
  obtain ⟨b, hb⟩ := Option.ne_none_iff_exists'.1 (hbytes off (BitVec.lt_def.2 h))
  exact ⟨b, by rw [Image.get, hb]; rfl⟩

theorem Elf.header_ok (hbytes : img.Readable) : ∃ o, Elf.header img = .ok o := by
  unfold Elf.header
  by_cases hlen : img.len.toNat < Elf.ehdrSize
  · rw [if_pos hlen]
    exact ⟨_, rfl⟩
  rw [if_neg hlen]
  rw [Elf.ehdrSize, Nat.not_lt] at hlen
  have hget : ∀ off : U64, off.toNat < 64 → ∃ b, img.get off = .ok b := fun off h => img.get_ok hbytes (by omega)
  have hfield : ∀ n (off : U64), off.toNat + n ≤ 64 → ∃ v, img.field n off = .ok v := fun n off h =>
    Elf.field_ok hbytes (by omega)
  obtain ⟨b0, h0⟩ := hget 0#64 (by decide)
  obtain ⟨b1, h1⟩ := hget 1#64 (by decide)
  obtain ⟨b2, h2⟩ := hget 2#64 (by decide)
  obtain ⟨b3, h3⟩ := hget 3#64 (by decide)
  obtain ⟨b4, h4⟩ := hget 4#64 (by decide)
  obtain ⟨machine, hmachine⟩ := hfield 2 18#64 (by decide)
  obtain ⟨phnum, hphnum⟩ := hfield 2 56#64 (by decide)
  obtain ⟨phentsize, hphentsize⟩ := hfield 2 54#64 (by decide)
  obtain ⟨phoff, hphoff⟩ := hfield 8 32#64 (by decide)
  simp only [mapM_cons, mapM_nil, h0, h1, h2, h3, h4, hmachine, hphnum, hphentsize, hphoff, ok_bind, pure_eq_ok]
  split_ifs
  all_goals exact ⟨_, rfl⟩

theorem Exec.isElf_ok (hbytes : img.Readable) : ∃ b, Exec.isElf img = .ok b := by
  unfold Exec.isElf
  by_cases hlen : img.len.toNat < 4
  · rw [if_pos hlen]
    exact ⟨_, rfl⟩
  obtain ⟨b0, h0⟩ := @Image.get_ok img hbytes 0 (by rw [show (0 : U64).toNat = 0 from rfl]; omega)
  obtain ⟨b1, h1⟩ := @Image.get_ok img hbytes 1 (by rw [show (1 : U64).toNat = 1 from rfl]; omega)
  simp only [if_neg hlen, h0, h1, ok_bind, pure_eq_ok]
  split_ifs
  all_goals exact ⟨_, rfl⟩

/-- the size of a file is a word of its directory entry -/
theorem Uixfs.uixfsRead_size {fs fs' : Uixfs} {k k' : Kern} {disk : Disk} {name : List (BitVec 8)} {r : ℤ}
    {buf : Option PAddr} (h : fs.uixfsRead disk name k = .ok (r, buf, fs', k')) : r < 2 ^ 32 := by
  unfold Uixfs.uixfsRead at h
  split_ifs at h with hmounted
  · cases h
    norm_num
  cases hlook : fs.lookup name with
  | none =>
    rw [hlook] at h
    cases h
    norm_num
  | some i =>
    rw [hlook] at h
    obtain ⟨⟨b, fs1, k1⟩, -, h⟩ := bind_ok.1 h
    cases b with
    | none =>
      cases h
      norm_num
    | some b =>
      obtain ⟨⟨done, fs2, k2⟩, -, h⟩ := bind_ok.1 h
      cases done with
      | false =>
        cases h
        norm_num
      | true =>
        cases h
        have hlt : fs.size i < 256 ^ 4 := Bytes.load_lt fs.entries (32 * i + 24) 4
        omega

end Read

namespace Exec

open Kern (cost Apart flatPages)

/-! ## Files -/

/-- the pages of the image; a file that is refused at its header has none -/
def filePages (img : Image) : List U64 :=
  match isElf img with
  | .ok true => match Elf.header img with
    | .ok (some eh) => Elf.imagePages img eh
    | _ => []
  | _ => flatPages img.len

/-- the pages for the image and the stack, with their tables -/
def imageCost (img : Image) : ℕ := cost .fresh (stackPages.reverse ++ (filePages img).reverse)

/-- a flat file ends below the stack; the segments of an ELF file with an accepted header can be loaded, no page of them
was mapped before, and none is a page of the stack unless the entry point is 0 -/
def FileFits (B : Base) (img : Image) : Prop :=
  match isElf img with
  | .ok true => ∀ eh, Elf.header img = .ok (some eh) → Elf.Loadable img eh ∧ ¬ Elf.Blocked B img eh ∧
    ∀ n, img.field 8 24#64 = .ok n → BitVec.ofNat 64 n ≠ 0 → Apart (Elf.imagePages img eh).reverse stackPages
  | _ => img.len.toNat ≤ 0x3C0000

/-- a copy from an ELF file goes on into memory that was mapped before -/
def Overwrites (B : Base) (img : Image) : Prop :=
  isElf img = .ok true ∧ ∃ eh, Elf.header img = .ok (some eh) ∧ Elf.Spilling B img eh

/-- the call returns to its caller with a negative number, or to the trampoline -/
def Survives (x : Except Stop (ExecResult × ExecState)) : Prop :=
  ∃ r s, x = .ok (r, s) ∧ ∀ n printed, r = .failed n printed → n < 0

/-! ## The kernel half -/

/-- the address is mapped in the kernel half of the task's space -/
def KernelMapped (s : ExecState) (a : U64) : Prop :=
  idx a 3 ∈ upperHalf ∧ paging.walk s.kern.mem 3 (pageIdx s.task.cr3) (idx a) ≠ none

/-- a new space for the task: nothing in the user half, and the kernel half of the old one -/
def newBase (s : ExecState) : Base where
  gap a := if idx a 3 ∈ upperHalf then paging.gap s.kern.mem 3 (pageIdx s.task.cr3) (idx a) else 3
  taken := KernelMapped s

def kernelTables (s : ExecState) : List ℕ := upperHalf.flatMap (paging.tablesAt s.kern.mem 3 (pageIdx s.task.cr3))

/-- the tables of the kernel half are different pages, which are neither free nor a part of the user half or of the file
buffer, and the kernel can write through them -/
structure KernelHalf (s : ExecState) : Prop where
  nodup : (kernelTables s).Nodup
  inside : ∀ g ∈ kernelTables s, g < s.kern.pmm.bitmapLen
  apart : ∀ g ∈ kernelTables s, ¬ Pool s.fs s.kern [pageIdx s.task.cr3] g
  links : ∀ e ∈ paging.links s.kern.mem 3 (pageIdx s.task.cr3) upperHalf, has e writeBit = true

def everyEntry : List (Fin 512) := lowerHalf ++ upperHalf

theorem mem_everyEntry (i : Fin 512) : i ∈ everyEntry := by
  rw [everyEntry, mem_append, mem_lowerHalf, mem_upperHalf]
  omega

theorem not_lower_of_upper {i : Fin 512} (h : i ∈ upperHalf) : i ∉ lowerHalf := mem_upperHalf_iff.1 h

theorem newBase_user (s : ExecState) {a : U64} (ha : idx a 3 ∈ lowerHalf) :
    (newBase s).gap a = 3 ∧ ¬ (newBase s).taken a := by
  have hno : idx a 3 ∉ upperHalf := fun hc => not_lower_of_upper hc ha
  refine ⟨?_, fun hc => hno hc.1⟩
  simp only [newBase, if_neg hno]

theorem newBase_gap_le (s : ExecState) (a : U64) : (newBase s).gap a ≤ 3 := by
  unfold newBase
  dsimp only
  split_ifs
  · exact gap_le
  · exact le_rfl

theorem userFree_newBase (s : ExecState) {is : List (Fin 512)} (his : is.Nodup) (hsub : lowerHalf ⊆ is) :
    UserFree is (newBase s) :=
  ⟨his, fun _ hva => ⟨hsub (within_user hva).1, (newBase_user s (within_user hva).1).2⟩⟩

theorem everyEntry_nodup : everyEntry.Nodup :=
  nodup_append'.2 ⟨lowerHalf_nodup, (nodup_finRange 512).filter _, fun _ h1 h2 => not_lower_of_upper h2 h1⟩

/-- **The space that `do_execve` fills**, with its kernel half. -/
theorem KernelHalf.stocked {env : ExecEnv} {path : List (BitVec 8)} {o : Option (Image × Bool)} {s s1 s2 : ExecState}
    (hk : KernelHalf s) (h : Caller s) (hfind : findProgram env path s = .ok (o, s1)) (hnew : newSpace s1 = .ok s2)
    (N : NewSpace s1 s2 [] s2.kern.pml4) (hfirst : AnotherFirst s1) :
    Stocked everyEntry (newBase s) s2.kern s2.kern [] := by
  obtain ⟨o', s1', hrun, htask, B⟩ := @findProgram_spec env path s h.live.held h.live.spaces.trees.pmm
  obtain ⟨-, rfl⟩ : o' = o ∧ s1' = s1 := by
    rw [hfind] at hrun
    simpa [eq_comm] using hrun
  have hlives : Lives s.fs s.kern [pageIdx s.task.cr3] s1'.fs s2.kern [s2.kern.pml4] := by
    have hN := N.lives
    rw [htask] at hN
    exact (h.live.buffered B).trans hN
  have hrow : KernelKept s s2 := h.kernelKept hfind hnew hfirst
  have hbelow : ∀ i ∈ upperHalf, ∀ g ∈ paging.tablesAt s.kern.mem 3 (pageIdx s.task.cr3) i,
      s2.kern.mem g = s.kern.mem g := fun i hi g hg => hlives.mem g (hk.apart g (mem_flatMap.2 ⟨i, hi, hg⟩))
  have htrail : ∀ a : U64, idx a 3 ∈ upperHalf → paging.trail s2.kern.mem 3 s2.kern.pml4 (idx a) =
      paging.trail s.kern.mem 3 (pageIdx s.task.cr3) (idx a) := fun a ha => trail_congr (hrow _ ha) (hbelow _ ha)
  have hpool : ∀ g ∈ kernelTables s, ¬ Pool s1'.fs s2.kern [s2.kern.pml4] g := fun g hg hc =>
    hk.apart g hg (hlives.pool g hc)
  obtain ⟨htables, -, hlinks⟩ := empty_space N.fresh.lower
  have hforest : paging.forest s2.kern.mem 3 [s2.kern.pml4] everyEntry = s2.kern.pml4 :: kernelTables s := by
    rw [forest, flatMap_singleton, Format.tables, everyEntry, flatMap_append, (cons.inj htables).2, nil_append]
    exact congrArg _ (flatMap_congr fun i hi => gather_congr (hrow i hi) (hbelow i hi))
  have S := N.fresh.stocked fun a ha => newBase_user s ha
  have hsplit : ∀ a : U64, idx a 3 ∈ lowerHalf ∨ idx a 3 ∈ upperHalf := fun a => mem_append.1 (mem_everyEntry _)
  refine ⟨⟨N.fresh.pmm, N.fresh.phys, ?_, ?_, ?_⟩, ⟨rfl, rfl, rfl⟩, rfl, rfl, fun a _ => ?_, fun a _ => ?_, ?_, ?_⟩
  · rw [hforest, nodup_cons]
    exact ⟨fun hc => hpool _ hc (.inr (.inr (.inl (root_mem_forest (mem_singleton_self _))))), hk.nodup⟩
  · rw [hforest, forall_mem_cons]
    exact ⟨N.fresh.inside, fun g hg => by rw [N.len, B.len]; exact hk.inside g hg⟩
  · rw [hforest, forall_mem_cons]
    exact ⟨N.fresh.used, fun g hg hc => hpool g hg (.inl hc)⟩
  · rcases hsplit a with ha | ha
    · exact S.mapped a ha
    · rw [walk_of_trail (htrail a ha)]
      exact ⟨fun hc => .inl ⟨ha, hc⟩, fun hc => hc.elim (·.2) fun hc => absurd hc.choose_spec.1 not_mem_nil⟩
  · rcases hsplit a with ha | ha
    · exact S.gaps a ha
    · rw [gap_of_trail (htrail a ha)]
      simp only [missing, foldr_nil, newBase, if_pos ha]
  · intro e he
    rw [Format.links, everyEntry, flatMap_append, show lowerHalf.flatMap _ = [] from hlinks, nil_append] at he
    obtain ⟨i, hi, he⟩ := mem_flatMap.1 he
    rw [show paging.linksAt s2.kern.mem 3 s2.kern.pml4 i = paging.linksAt s.kern.mem 3 (pageIdx s.task.cr3) i from
      gather_congr (hrow i hi) (hbelow i hi)] at he
    exact hk.links e (mem_flatMap.2 ⟨i, hi, he⟩)
  · intro post va pre hc
    exact absurd hc.symm (append_ne_nil_of_right_ne_nil _ (cons_ne_nil _ _))

/-! ## The load -/

section Files

variable {img : Image} {is : List (Fin 512)} {B : Base} {k : Kern} {path : List (BitVec 8)} {env : ExecEnv}
  {s s' : ExecState} {upath : U64}

theorem outcome_negative (o : Option (U64 × U64)) (n : ℤ) (printed : List (BitVec 8))
    (h : outcome path o = .failed n printed) : n < 0 := by
  cases o with
  | none =>
    cases h
    decide
  | some q => cases h

/-- **The load of a file**, with enough pages. -/
theorem loadImage_survives (h : k.FreshSpace) (hs : Stocked is B k k []) (hB : UserFree is B) (hgap : ∀ a, B.gap a ≤ 3)
    (hin : ∀ eh, Elf.header img = .ok (some eh) → ∀ ph ∈ Elf.segments img eh (List.range eh.phnum), ∀ va ∈ ph.pages,
      Within is va)
    (hsize : img.len.toNat + 0x400000 ≤ 2 ^ 47) (hbytes : img.Readable) (hpath : path.length ≤ 63)
    (hroom : imageCost img ≤ k.pmm.freeSet.card) :
    (FileFits B img → ∃ o k' n, loadImage img path k = .ok (o, k') ∧ k'.pmm = k.pmm.skip n) ∧
      ((∃ r, loadImage img path k = .ok r) → FileFits B img ∨ Overwrites B img) := by
  obtain ⟨elf, helf⟩ := isElf_ok hbytes
  unfold imageCost filePages at hroom
  unfold loadImage FileFits Overwrites
  rw [helf] at hroom ⊢
  rw [ok_bind]
  cases elf with
  | false =>
    have hflat := h.flat hsize hbytes
    have hok : pagesStop .fresh k.pmm.freeSet.card [] (flatPages img.len ++ stackPages) = none ↔ _ :=
      pagesStop_none (cost_nil_le _)
    rw [append_nil, reverse_append, and_iff_left hroom, flat_apart hsize] at hok
    dsimp only
    rw [if_neg (by decide), ← bind_assoc]
    constructor
    · intro hfits
      obtain ⟨k', hrun, hk'⟩ := hflat.ok (hok.2 hfits)
      exact ⟨_, k', _, bind_ok.2 ⟨k', hrun, rfl⟩, hk'.pmm⟩
    · rintro ⟨r, hrun⟩
      obtain ⟨k', hrun, -⟩ := bind_ok.1 hrun
      exact .inl (hok.1 (hflat.ok_iff.1 ⟨k', hrun⟩))
  | true =>
    dsimp only
    rw [if_pos rfl]
    obtain ⟨o, hheader⟩ := Elf.header_ok hbytes
    rw [hheader] at hroom ⊢
    cases o with
    | none =>
      refine ⟨fun _ => ⟨none, k, 0, ?_, rfl⟩, fun _ => .inl fun eh hc => by cases hc⟩
      rw [Elf.elfLoad, hheader]
      rfl
    | some eh =>
      dsimp only at hroom
      have hcost : cost B (stackPages.reverse ++ (Elf.imagePages img eh).reverse) ≤ k.pmm.freeSet.card :=
        (cost_le_fresh hgap _).trans hroom
      have hle : cost B (Elf.imagePages img eh).reverse ≤ k.pmm.freeSet.card := (cost_le_append _ _).trans hcost
      obtain ⟨n, hn⟩ := @Elf.field_ok img hbytes 8 24#64 (by
        have := Elf.header_len hheader
        rw [show (24#64 : U64).toNat = 24 from rfl]
        omega)
      have haccount := Elf.elfLoad_accounts hs hB.nodup h.cr3 hheader (hin eh hheader)
      have hfits : (∀ eh', (Except.ok (some eh) : Except Stop _) = .ok (some eh') → Elf.Loadable img eh' ∧
          ¬ Elf.Blocked B img eh' ∧ ∀ n, img.field 8 24#64 = .ok n → BitVec.ofNat 64 n ≠ 0 →
            Apart (Elf.imagePages img eh').reverse stackPages) ↔ Elf.Loadable img eh ∧ ¬ Elf.Blocked B img eh ∧
          (BitVec.ofNat 64 n ≠ 0 → Apart (Elf.imagePages img eh).reverse stackPages) := by
        constructor
        · intro hall
          exact ⟨(hall eh rfl).1, (hall eh rfl).2.1, (hall eh rfl).2.2 n hn⟩
        · rintro ⟨hl, hb, hap⟩ eh' heh'
          cases heh'
          refine ⟨hl, hb, fun n' hn' => ?_⟩
          rw [hn, Except.ok.injEq] at hn'
          exact hn' ▸ hap
      rw [hfits]
      cases hload : Elf.elfLoad img k with
      | error e =>
        constructor
        · rintro ⟨hl, hb, -⟩
          exact absurd ((haccount.stop hload).2 hl hb ⟨n, hn⟩) (Nat.not_lt.2 hle)
        · rintro ⟨r, hc⟩
          cases hc
      | ok r =>
        obtain ⟨entry, l⟩ := r
        rcases haccount.of_eq hload with ⟨-, hlt⟩ | ⟨hspill, hno⟩ | ⟨hl, hb, hs, n', hn', hentry⟩
        · exact absurd hlt (Nat.not_lt.2 hle)
        · exact ⟨fun hc => absurd (hno hc.1) hc.2.1, fun _ => .inr ⟨rfl, eh, rfl, hspill⟩⟩
        rw [hn, Except.ok.injEq] at hn'
        subst hn'
        dsimp only at hentry hs
        subst hentry
        rw [and_iff_right hl, and_iff_right hb, ok_bind]
        dsimp only
        by_cases h0 : BitVec.ofNat 64 n = 0
        · rw [if_pos h0]
          exact ⟨fun _ => ⟨none, l.kern, _, rfl, hs.pmm⟩, fun _ => .inl fun hc => absurd h0 hc⟩
        · rw [if_neg h0, forall_prop_of_true h0]
          have hstack := hs.elfStack (BitVec.ofNat 64 n) hB h.cr3 hpath
          have hok := (@pagesStop_none _ _ _ stackPages hle).trans (and_iff_left hcost)
          refine ⟨fun hap => ?_, fun hrun => .inl (hok.1 (hstack.ok_iff.1 hrun))⟩
          obtain ⟨r, hrun, -, h'⟩ := hstack.ok (hok.2 hap)
          exact ⟨r.1, r.2, _, hrun, h'.pmm⟩

/-- what a program file is: it can be read to its end, and its size is a word -/
theorem findProgram_file {b : Bool} (hsh : named path shName = false) (hhello : named path hello2Name = false)
    (hfind : findProgram env path s = .ok (some (img, b), s')) : img.Readable ∧ img.len.toNat + 0x400000 ≤ 2 ^ 47 := by
  rw [findProgram, if_neg (by rw [hsh]; decide), if_neg (by rw [hhello]; decide)] at hfind
  obtain ⟨⟨r, buf, fs, k⟩, hread, hfind⟩ := bind_ok.1 hfind
  have hsize := Uixfs.uixfsRead_size hread
  cases buf with
  | none => cases hfind
  | some buf =>
    dsimp only at hfind
    split_ifs at hfind with hr
    · cases hfind
    cases hfind
    have hlen : (diskImage env k buf r.toNat).len.toNat = r.toNat := by
      rw [diskImage, BitVec.toNat_ofNat]
      omega
    refine ⟨fun off hoff => ?_, by omega⟩
    rw [BitVec.lt_def, hlen] at hoff
    rw [diskImage]
    dsimp only
    rw [if_pos hoff]
    exact Option.some_ne_none _

end Files

/-- the file `f` of `size` bytes, and a thousand free pages -/
def fileState (size : BitVec 8) : ExecState where
  kern := scarceKern 1000 (some fun _ => 0)
  fs := { oneFile with entries := Function.update oneFile.entries 24 size }
  task := { Tasks.newTask with cr3 := pageAddr 1 }

/-- every sector is the file -/
def fileEnv (file : List (BitVec 8)) : ExecEnv :=
  { Tasks.shEnv with disk := fun _ => some fun x => file.getD x 0, stale := fun _ => 0 }

/-- what is seen of the file: its pages, its header, and the free pages after it is read -/
def glance (file : List (BitVec 8)) (size : BitVec 8) : Option (ℕ × Option (Option Elf.Ehdr) × Option Bool × ℕ) :=
  match findProgram (fileEnv file) [0x66] (fileState size) with
  | .ok (some (img, _), s) =>
    some ((filePages img).length, (Elf.header img).toOption, (isElf img).toOption, s.kern.pmm.freeCount)
  | _ => none

theorem fileState_caller (size : BitVec 8) : Caller (fileState size) := scarceKern_caller _ (by decide) rfl rfl

section Glance

variable {file : List (BitVec 8)} {size : BitVec 8} {n free : ℕ} {eh : Option (Option Elf.Ehdr)} {elf : Option Bool}

theorem file_path (size : BitVec 8) : copyPath (fileState size).kern 63 0 = .ok [0x66] := by
  change copyPath (scarceKern 1000 (some fun _ => 0)) 63 0 = .ok [0x66]
  decide +kernel

theorem file_found {img : Image} {s1 : ExecState} : Found (fileEnv file) 0 (fileState size) img s1 ↔
    ∃ fromDisk, findProgram (fileEnv file) [0x66] (fileState size) = .ok (some (img, fromDisk), s1) := by
  have hpath : pathString (fileEnv file).stale [0x66] = [0x66] := by
    change pathString (fun _ => 0) [0x66] = [0x66]
    decide
  rw [found_iff (file_path size), hpath]

theorem glance_found (h : glance file size = some (n, eh, elf, free)) :
    (∃ img s1, Found (fileEnv file) 0 (fileState size) img s1) ∧
    ∀ img s1, Found (fileEnv file) 0 (fileState size) img s1 →
      (filePages img).length = n ∧ (Elf.header img).toOption = eh ∧ (isElf img).toOption = elf ∧
      s1.kern.pmm.freeCount = free := by
  unfold glance at h
  split at h
  · rename_i img fromDisk s1 hfind
    simp only [Option.some.injEq, Prod.mk.injEq] at h
    refine ⟨⟨img, s1, file_found.2 ⟨fromDisk, hfind⟩⟩, fun img' s1' hf => ?_⟩
    obtain ⟨fromDisk', hfind'⟩ := file_found.1 hf
    rw [hfind] at hfind'
    cases hfind'
    exact h
  · cases h

/-- four pages for each page of the image and the stack are enough -/
theorem glance_room (h : glance file size = some (n, eh, elf, free)) (hfree : 4 * (64 + n) ≤ free) {img : Image}
    {s1 s2 : ExecState} (hf : Found (fileEnv file) 0 (fileState size) img s1) (hnew : newSpace s1 = .ok s2) :
    imageCost img ≤ s2.kern.pmm.freeSet.card := by
  obtain ⟨hlen, -, -, hcount⟩ := (glance_found h).2 img s1 hf
  obtain ⟨fromDisk, hfind⟩ := file_found.1 hf
  have h1 := ((fileState_caller size).found hfind).1
  obtain ⟨s2', d, hnew', N⟩ := newSpace_spec h1.live h1.cr3_ne_zero fun r hr => absurd hr not_mem_nil
  obtain rfl : s2' = s2 := Except.ok.inj (hnew'.symm.trans hnew)
  have hcost := cost_le (stackPages.reverse ++ (filePages img).reverse)
  have hstack : stackPages.length = 64 := by rw [stackPages, length_map, length_range]
  rw [length_append, length_reverse, length_reverse, hlen, hstack] at hcost
  calc imageCost img ≤ 4 * (64 + n) := hcost
    _ ≤ s1.kern.pmm.freeSet.card := by rwa [← h1.live.spaces.trees.pmm.count, hcount]
    _ ≤ s2'.kern.pmm.freeSet.card := N.room

end Glance

end Exec

end Uix
