/-
What `elf_load` reads of its image. The loader is written once more with a log of the bytes it reads and of the calls of
`memcpy` it makes; without the log it is the loader of `Elf.lean`.

The end of the header table is compared with the length of the image after a sum that may wrap, and the length of a copy
is cut with `copy = len - file_off`, which wraps when a segment starts behind the end of the image.

- `elfLoadL_res`: the logged loader returns what the loader returns.
- `elf_load_inside`: all reads lie in the image, and no copy is longer than a page, just if the header table starts in
  the image and every copy starts there; in a new space the image and the free pages decide it (`CopiesStart`).
- `elf_load_reads_outside`: a segment behind the end of the file.
-/
import Uix.Cpu.ImagePages
import Uix.Lib.Logged

namespace Uix.Elf

open Machine Logged List
open Pmm (pageIdx pageAddr)

/-- a byte of the image read, or a call of `memcpy` of `n` bytes from `off` on -/
inductive Access where
  | read (off : U64)
  | copy (off : U64) (n : ℕ)
  deriving DecidableEq, Repr

abbrev Trace := Logged Access Stop

/-! ## The loader with its log -/

def getL (img : Image) (off : U64) : Trace (BitVec 8) := ⟨[.read off], img.get off⟩

def fieldL (img : Image) : ℕ → U64 → Trace ℕ
  | 0, _ => pure 0
  | n + 1, off => do
    let b ← getL img off
    let rest ← fieldL img n (off + 1)
    pure (b.toNat + 256 * rest)

def copyInL (img : Image) : ℕ → U64 → U64 → Kern → Trace Kern
  | 0, _, _, k => pure k
  | n + 1, va, off, k => do
    let b ← getL img off
    let k ← lift (k.write false va b)
    copyInL img n (va + 1) (off + 1) k

def identL (img : Image) : List U64 → Trace (List (BitVec 8))
  | [] => pure []
  | off :: offs => do
    let b ← getL img off
    let rest ← identL img offs
    pure (b :: rest)

def headerL (img : Image) : Trace (Option Ehdr) := do
  if img.len.toNat < ehdrSize then pure none else
  let ident ← identL img [0#64, 1#64, 2#64, 3#64]
  if ident ≠ [0x7F#8, 0x45#8, 0x4C#8, 0x46#8] then pure none else
  let cls ← getL img 4#64
  if cls ≠ 2 then pure none else
  let machine ← fieldL img 2 18#64
  if machine ≠ 0x3E then pure none else
  let phnum ← fieldL img 2 56#64
  let phentsize ← fieldL img 2 54#64
  if phnum = 0 ∨ phentsize < phdrSize then pure none else
  let phoff ← fieldL img 8 32#64
  let phoff := BitVec.ofNat 64 phoff
  if img.len < phoff + BitVec.ofNat 64 (phnum * phentsize) then pure none else
  pure (some ⟨phoff, phnum⟩)

def segmentL (img : Image) (eh : Ehdr) (i : ℕ) : Trace (Option Phdr) := do
  let base := eh.phoff + BitVec.ofNat 64 (i * phdrSize)
  let type ← fieldL img 4 base
  if type ≠ ptLoad then pure none else
  let offset ← fieldL img 8 (base + 8#64)
  let vaddr ← fieldL img 8 (base + 16#64)
  let filesz ← fieldL img 8 (base + 32#64)
  let memsz ← fieldL img 8 (base + 40#64)
  pure (some ⟨.ofNat 64 offset, .ofNat 64 vaddr, .ofNat 64 filesz, .ofNat 64 memsz⟩)

def loadPageL (img : Image) (ph : Phdr) (va : U64) (s : Load) : Trace (Bool × Load) := do
  let (pg, k) ← lift s.kern.pmmAlloc
  if pg = 0 then pure (false, { s with kern := k }) else
  let k ← lift ((k.zero (pageIdx pg)).vmmMap va pg pageFlags)
  if ph.offset ≤ ph.fileOff va ∧ va < ph.vaddr + ph.filesz then
    let n := (ph.copyLen img.len va).toNat
    note (.copy (ph.fileOff va) n)
    let k ← copyInL img n va (ph.fileOff va) k
    pure (true, ⟨k, (List.range n).map (fun j => va + BitVec.ofNat 64 j) ++ va :: s.touched⟩)
  else pure (true, ⟨k, va :: s.touched⟩)

def loadPagesL (img : Image) (ph : Phdr) : List U64 → Load → Trace (Bool × Load)
  | [], s => pure (true, s)
  | va :: vas, s => do
    let (done, s) ← loadPageL img ph va s
    if done then loadPagesL img ph vas s else pure (false, s)

def loadSegmentsL (img : Image) (eh : Ehdr) : List ℕ → Load → Trace (Bool × Load)
  | [], s => pure (true, s)
  | i :: is, s => do
    match ← segmentL img eh i with
    | none => loadSegmentsL img eh is s
    | some ph => do
      let (done, s) ← loadPagesL img ph ph.pages s
      if done then loadSegmentsL img eh is s else pure (false, s)

def elfLoadL (img : Image) (k : Kern) : Trace (U64 × Load) := do
  match ← headerL img with
  | none => pure (0, ⟨k, []⟩)
  | some eh => do
    let (done, s) ← loadSegmentsL img eh (List.range eh.phnum) ⟨k, []⟩
    if !done then pure (0, s) else
    let entry ← fieldL img 8 24#64
    pure (BitVec.ofNat 64 entry, s)

/-! ## Without the log -/

section Erase

variable (img : Image)

theorem getL_res (off : U64) : (getL img off).res = img.get off := rfl

theorem fieldL_res (n : ℕ) (off : U64) : (fieldL img n off).res = img.field n off := by
  induction n generalizing off with
  | zero => rfl
  | succ n ih =>
    simp only [fieldL, Image.field, res_bind, getL_res, ih, pure_res]
    rfl

theorem copyInL_res (n : ℕ) (va off : U64) (k : Kern) : (copyInL img n va off k).res = img.copyIn n va off k := by
  induction n generalizing va off k with
  | zero => rfl
  | succ n ih => simp only [copyInL, Image.copyIn, res_bind, getL_res, lift_res, ih]

theorem identL_res (offs : List U64) : (identL img offs).res = offs.mapM img.get := by
  induction offs with
  | nil => rfl
  | cons off offs ih =>
    simp only [identL, mapM_cons, res_bind, getL_res, ih, pure_res]
    rfl

theorem ite_res {α : Type} {p : Prop} [Decidable p] (x y : Trace α) :
    (if p then x else y).res = if p then x.res else y.res := apply_ite Logged.res p x y

theorem headerL_res : (headerL img).res = header img := by
  simp only [headerL, header, res_bind, ite_res, identL_res, getL_res, fieldL_res, pure_res]
  rfl

theorem segmentL_res (eh : Ehdr) (i : ℕ) : (segmentL img eh i).res = segment img eh i := by
  simp only [segmentL, segment, res_bind, ite_res, fieldL_res, pure_res]
  rfl

theorem loadPageL_res (ph : Phdr) (va : U64) (s : Load) : (loadPageL img ph va s).res = loadPage img ph va s := by
  simp only [loadPageL, loadPage, res_bind, ite_res, lift_res, note_res, copyInL_res, pure_res]
  rfl

theorem loadPagesL_res (ph : Phdr) (vas : List U64) (s : Load) :
    (loadPagesL img ph vas s).res = loadPages img ph vas s := by
  induction vas generalizing s with
  | nil => rfl
  | cons va vas ih =>
    simp only [loadPagesL, loadPages, res_bind, ite_res, loadPageL_res, ih, pure_res]
    rfl

theorem loadSegmentsL_res (eh : Ehdr) (is : List ℕ) (s : Load) :
    (loadSegmentsL img eh is s).res = loadSegments img eh is s := by
  induction is generalizing s with
  | nil => rfl
  | cons i is ih =>
    simp only [loadSegmentsL, loadSegments, res_bind, segmentL_res]
    congr 1
    funext o
    cases o with
    | none => exact ih s
    | some ph =>
      simp only [res_bind, ite_res, loadPagesL_res, ih, pure_res]
      rfl

/-- **The log is all that is added.** -/
theorem elfLoadL_res (k : Kern) : (elfLoadL img k).res = elfLoad img k := by
  simp only [elfLoadL, elfLoad, res_bind, headerL_res]
  congr 1
  funext o
  cases o with
  | none => rfl
  | some eh =>
    simp only [res_bind, ite_res, loadSegmentsL_res, fieldL_res, pure_res]
    rfl

end Erase

/-! ## Where it reads -/

/-- a read inside an image of `len` bytes; a copy of at most one page -/
def Inside (len : U64) : Access → Prop
  | .read off => off < len
  | .copy _ n => n ≤ 4096

/-- a copy that starts in the image, or at its end -/
def Starts (len : U64) : Access → Prop
  | .read _ => True
  | .copy off _ => off ≤ len

section Reads

variable {img : Image} {len off va : U64} {n : ℕ} {P : Access → Prop}

theorem only_getL : Only P (getL img off) ↔ P (.read off) := forall_mem_singleton

/-- offsets that do not pass the end of the image -/
theorem offset_succ (h : off.toNat + (n + 1) ≤ len.toNat) : (off + 1).toNat = off.toNat + 1 := by
  have hlen := len.isLt
  rw [BitVec.toNat_add, show (1 : U64).toNat = 1 from rfl, Nat.mod_eq_of_lt (by omega)]

theorem inside_field (h : off.toNat + n ≤ len.toNat) : Only (Inside len) (fieldL img n off) := by
  induction n generalizing off with
  | zero => exact only_pure 0
  | succ n ih =>
    have hnext := offset_succ h
    refine (only_getL.2 (show off < len from BitVec.lt_def.2 (by omega))).bind fun b _ => ?_
    exact (ih (by omega)).bind fun rest _ => only_pure _

/-- the first byte is read in any case -/
theorem field_first (h : Only (Inside len) (fieldL img (n + 1) off)) : off < len := only_getL.1 (only_bind.1 h).1

theorem inside_copyIn {k : Kern} (h : off.toNat + n ≤ len.toNat) : Only (Inside len) (copyInL img n va off k) := by
  induction n generalizing off va k with
  | zero => exact only_pure k
  | succ n ih =>
    have hnext := offset_succ h
    refine (only_getL.2 (show off < len from BitVec.lt_def.2 (by omega))).bind fun b _ => ?_
    exact (only_lift _).bind fun k' _ => ih (by omega)

theorem copyIn_first {k : Kern} (hn : n ≠ 0) (h : Only (Inside len) (copyInL img n va off k)) : off < len := by
  obtain ⟨n, rfl⟩ := Nat.exists_eq_succ_of_ne_zero hn
  exact only_getL.1 (only_bind.1 h).1

theorem starts_field : Only (Starts len) (fieldL img n off) := by
  induction n generalizing off with
  | zero => exact only_pure 0
  | succ n ih => exact (only_getL.2 trivial).bind fun b _ => ih.bind fun rest _ => only_pure _

theorem starts_copyIn {k : Kern} : Only (Starts len) (copyInL img n va off k) := by
  induction n generalizing off va k with
  | zero => exact only_pure k
  | succ n ih => exact (only_getL.2 trivial).bind fun b _ => (only_lift _).bind fun k' _ => ih

theorem only_ident {offs : List U64} (h : ∀ off ∈ offs, P (.read off)) : Only P (identL img offs) := by
  induction offs with
  | nil => exact only_pure []
  | cons off offs ih =>
    obtain ⟨hoff, hoffs⟩ := forall_mem_cons.1 h
    exact (only_getL.2 hoff).bind fun b _ => (ih hoffs).bind fun rest _ => only_pure _

/-- a log of single reads only -/
theorem only_header (hident : ∀ off ∈ [0#64, 1#64, 2#64, 3#64, 4#64], ehdrSize ≤ img.len.toNat → P (.read off))
    (hfield : ∀ n off, off.toNat + n ≤ ehdrSize → ehdrSize ≤ img.len.toNat → Only P (fieldL img n off)) :
    Only P (headerL img) := by
  unfold headerL
  split_ifs with hlen
  · exact only_pure none
  rw [Nat.not_lt] at hlen
  refine (only_ident fun off hoff => hident off ?_ hlen).bind fun ident _ => ?_
  · simp only [mem_cons, not_mem_nil, or_false] at hoff ⊢
    tauto
  split_ifs
  · exact only_pure none
  refine (only_getL.2 (hident 4 (by decide) hlen)).bind fun cls _ => ?_
  split_ifs
  · exact only_pure none
  refine (hfield 2 18 (by decide) hlen).bind fun machine _ => ?_
  split_ifs
  · exact only_pure none
  refine (hfield 2 56 (by decide) hlen).bind fun phnum _ => (hfield 2 54 (by decide) hlen).bind fun phentsize _ => ?_
  split_ifs
  · exact only_pure none
  refine (hfield 8 32 (by decide) hlen).bind fun phoff _ => ?_
  dsimp only
  split_ifs
  · exact only_pure none
  · exact only_pure _

theorem inside_header : Only (Inside img.len) (headerL img) := by
  refine only_header (fun off hoff hlen => ?_) fun n off hoff hlen => inside_field (hoff.trans hlen)
  refine BitVec.lt_def.2 (lt_of_lt_of_le ?_ hlen)
  simp only [mem_cons, not_mem_nil, or_false] at hoff
  rcases hoff with rfl | rfl | rfl | rfl | rfl <;> decide

theorem starts_header : Only (Starts len) (headerL img) :=
  only_header (fun _ _ _ => trivial) fun _ _ _ _ => starts_field

end Reads

/-! ## The header table -/

section Table

variable {img : Image} {eh : Ehdr} {n : ℕ} {off : U64}

theorem field_lt {v : ℕ} (h : img.field n off = .ok v) : v < 256 ^ n := by
  induction n generalizing off v with
  | zero =>
    cases h
    exact Nat.one_pos
  | succ n ih =>
    obtain ⟨b, -, h⟩ := bind_ok.1 h
    obtain ⟨rest, hrest, h⟩ := bind_ok.1 h
    rw [pure_ok] at h
    have hlt := ih hrest
    have hb := b.isLt
    rw [← h, pow_succ]
    omega

theorem header_len (h : header img = .ok (some eh)) : 64 ≤ img.len.toNat := by
  by_contra hlen
  rw [header, if_pos (show img.len.toNat < ehdrSize from Nat.not_le.1 hlen)] at h
  cases h

/-- what the checks of `elf_load` have seen to -/
theorem header_accepted (h : header img = .ok (some eh)) :
    eh.phnum ≠ 0 ∧ ∃ phentsize, img.field 2 54#64 = .ok phentsize ∧ phdrSize ≤ phentsize ∧
      eh.phnum * phentsize < 2 ^ 32 ∧ eh.phoff + BitVec.ofNat 64 (eh.phnum * phentsize) ≤ img.len := by
  unfold header at h
  split_ifs at h with hlen
  · cases h
  obtain ⟨ident, -, h⟩ := bind_ok.1 h
  split_ifs at h with hident
  · cases h
  obtain ⟨cls, -, h⟩ := bind_ok.1 h
  split_ifs at h with hcls
  · cases h
  obtain ⟨machine, -, h⟩ := bind_ok.1 h
  split_ifs at h with hmachine
  · cases h
  obtain ⟨phnum, hphnum, h⟩ := bind_ok.1 h
  obtain ⟨phentsize, hphentsize, h⟩ := bind_ok.1 h
  split_ifs at h with hsize
  · cases h
  obtain ⟨phoff, -, h⟩ := bind_ok.1 h
  dsimp only at h
  split_ifs at h with hend
  · cases h
  cases h
  rw [not_or, Nat.not_lt] at hsize
  have h1 := field_lt hphnum
  have h2 := field_lt hphentsize
  refine ⟨hsize.1, phentsize, hphentsize, hsize.2, ?_, BitVec.not_lt.1 hend⟩
  calc phnum * phentsize ≤ 65535 * 65535 := Nat.mul_le_mul (by omega) (by omega)
    _ < 2 ^ 32 := by decide

/-- the table lies in the image if it starts there -/
theorem table_inside (hlen : img.len.toNat ≤ 2 ^ 47) (h : header img = .ok (some eh))
    (hoff : eh.phoff ≤ img.len) {i : ℕ} (hi : i < eh.phnum) :
    (eh.phoff + BitVec.ofNat 64 (i * phdrSize)).toNat = eh.phoff.toNat + i * phdrSize ∧
      eh.phoff.toNat + i * phdrSize + phdrSize ≤ img.len.toNat := by
  obtain ⟨-, phentsize, -, hsize, hlt, hend⟩ := header_accepted h
  have hoff' := BitVec.le_def.1 hoff
  have hend' := BitVec.le_def.1 hend
  rw [BitVec.toNat_add, BitVec.toNat_ofNat, Nat.mod_eq_of_lt (show eh.phnum * phentsize < 2 ^ 64 by omega),
    Nat.mod_eq_of_lt (by omega)] at hend'
  have hrow : i * phdrSize + phdrSize ≤ eh.phnum * phentsize := by
    calc i * phdrSize + phdrSize = (i + 1) * phdrSize := by ring
      _ ≤ eh.phnum * phentsize := Nat.mul_le_mul hi hsize
  refine ⟨?_, by omega⟩
  rw [BitVec.toNat_add, BitVec.toNat_ofNat, Nat.mod_eq_of_lt (show i * phdrSize < 2 ^ 64 by omega),
    Nat.mod_eq_of_lt (by omega)]

theorem inside_segment (hlen : img.len.toNat ≤ 2 ^ 47) (h : header img = .ok (some eh))
    (hoff : eh.phoff ≤ img.len) {i : ℕ} (hi : i < eh.phnum) : Only (Inside img.len) (segmentL img eh i) := by
  obtain ⟨hbase, hend⟩ := table_inside hlen h hoff hi
  have hfield : ∀ n (o : U64), o.toNat + n ≤ phdrSize →
      Only (Inside img.len) (fieldL img n (eh.phoff + BitVec.ofNat 64 (i * phdrSize) + o)) := by
    intro n o ho
    apply inside_field
    rw [BitVec.toNat_add, hbase, Nat.mod_eq_of_lt (by omega)]
    omega
  unfold segmentL
  have htype := hfield 4 0#64 (by decide)
  rw [BitVec.add_zero] at htype
  refine htype.bind fun type _ => ?_
  split_ifs
  · exact only_pure none
  refine (hfield 8 8 (by decide)).bind fun _ _ => (hfield 8 16 (by decide)).bind fun _ _ => ?_
  exact (hfield 8 32 (by decide)).bind fun _ _ => (hfield 8 40 (by decide)).bind fun _ _ => only_pure _

/-- the first header is read in any case -/
theorem segment_first (h : Only (Inside img.len) (segmentL img eh 0)) : eh.phoff < img.len := by
  have := field_first (only_bind.1 h).1
  rwa [Nat.zero_mul, BitVec.add_zero] at this

theorem starts_segment {len : U64} {i : ℕ} : Only (Starts len) (segmentL img eh i) := by
  unfold segmentL
  refine starts_field.bind fun type _ => ?_
  split_ifs
  · exact only_pure none
  · exact starts_field.bind fun _ _ => starts_field.bind fun _ _ => starts_field.bind fun _ _ =>
      starts_field.bind fun _ _ => only_pure _

end Table

/-! ## The pages -/

section Pages

variable {img : Image} {ph : Phdr} {eh : Ehdr} {va : U64} {s : Load}

/-- a copy from a place in the image stays in the image and in the page; one from behind the end reads there -/
theorem copyLen_spec (ph : Phdr) {len va : U64} (hlen : len.toNat ≤ 2 ^ 47) (hva : va < ph.vaddr + ph.filesz) :
    (ph.fileOff va ≤ len → (ph.copyLen len va).toNat ≤ 4096 ∧
      (ph.fileOff va).toNat + (ph.copyLen len va).toNat ≤ len.toNat) ∧
    (¬ ph.fileOff va ≤ len → (ph.copyLen len va).toNat ≠ 0) := by
  have hpos : (ph.vaddr + ph.filesz - va).toNat ≠ 0 := by
    have := BitVec.lt_def.1 hva
    have hlt := (ph.vaddr + ph.filesz).isLt
    rw [BitVec.toNat_sub]
    omega
  unfold Phdr.copyLen
  dsimp only
  generalize ph.vaddr + ph.filesz - va = c at hpos ⊢
  generalize ph.fileOff va = o
  have hcut : (if 4096#64 < c then 4096#64 else c).toNat ≤ 4096 ∧ (if 4096#64 < c then 4096#64 else c).toNat ≠ 0 := by
    split_ifs with h
    · decide
    · rw [BitVec.not_lt] at h
      exact ⟨BitVec.le_def.1 h, hpos⟩
  generalize (if 4096#64 < c then 4096#64 else c) = d at hcut ⊢
  obtain ⟨hle, hne⟩ := hcut
  have ho := o.isLt
  constructor
  · intro hol
    rw [BitVec.le_def] at hol
    split_ifs with h
    · rw [BitVec.lt_def, BitVec.toNat_add] at h
      rw [BitVec.toNat_sub]
      omega
    · rw [BitVec.lt_def, BitVec.toNat_add] at h
      refine ⟨hle, ?_⟩
      omega
  · intro hol
    rw [BitVec.le_def] at hol
    split_ifs with h
    · rw [BitVec.toNat_sub]
      omega
    · exact hne

/-- **One page**: it is read inside the image just if its copy starts there. -/
theorem inside_page (hlen : img.len.toNat ≤ 2 ^ 47) :
    Only (Inside img.len) (loadPageL img ph va s) ↔ Only (Starts img.len) (loadPageL img ph va s) := by
  simp only [loadPageL, only_bind, only_lift, true_and]
  refine forall₂_congr fun p _ => ?_
  split_ifs with h0 hcopy
  · exact iff_of_true (only_pure _) (only_pure _)
  · simp only [only_bind, only_lift, only_note, only_pure, true_and, implies_true, and_true, starts_copyIn, note_res]
    refine forall₂_congr fun k _ => ?_
    obtain ⟨hin, hout⟩ := copyLen_spec ph hlen hcopy.2
    constructor
    · rintro ⟨-, h⟩
      by_contra hstart
      have hread := copyIn_first (hout hstart) (h () trivial)
      exact hstart (BitVec.le_of_lt hread)
    · intro hstart
      obtain ⟨h1, h2⟩ := hin hstart
      exact ⟨h1, fun _ _ => inside_copyIn h2⟩
  · simp only [only_bind, only_lift, only_pure, true_and, implies_true]

/-- a page whose copy starts in the image -/
theorem starts_page {len : U64} (h : Copied ph va → ph.fileOff va ≤ len) :
    Only (Starts len) (loadPageL img ph va s) := by
  simp only [loadPageL, only_bind, only_lift, true_and]
  intro p _
  split_ifs with h0 hcopy
  · exact only_pure _
  · simp only [only_bind, only_lift, only_note, only_pure, true_and, implies_true, and_true, starts_copyIn]
    exact fun _ _ => h hcopy
  · simp only [only_bind, only_lift, only_pure, true_and, implies_true]

variable {P Q : Access → Prop}

theorem only_pages_congr {vas : List U64}
    (h : ∀ va ∈ vas, ∀ s, Only P (loadPageL img ph va s) ↔ Only Q (loadPageL img ph va s)) :
    Only P (loadPagesL img ph vas s) ↔ Only Q (loadPagesL img ph vas s) := by
  induction vas generalizing s with
  | nil => exact iff_of_true (only_pure _) (only_pure _)
  | cons va vas ih =>
    obtain ⟨hva, hvas⟩ := forall_mem_cons.1 h
    simp only [loadPagesL, only_bind, hva]
    refine and_congr_right fun _ => forall₂_congr fun p _ => ?_
    split_ifs
    · exact ih hvas
    · exact iff_of_true (only_pure _) (only_pure _)

theorem only_segments_congr {is : List ℕ} (hseg : ∀ i ∈ is, Only P (segmentL img eh i) ↔ Only Q (segmentL img eh i))
    (h : ∀ i ∈ is, ∀ ph, segment img eh i = .ok (some ph) → ∀ va ∈ ph.pages, ∀ s,
      Only P (loadPageL img ph va s) ↔ Only Q (loadPageL img ph va s)) :
    Only P (loadSegmentsL img eh is s) ↔ Only Q (loadSegmentsL img eh is s) := by
  induction is generalizing s with
  | nil => exact iff_of_true (only_pure _) (only_pure _)
  | cons i is ih =>
    obtain ⟨hi, hseg⟩ := forall_mem_cons.1 hseg
    obtain ⟨hpage, h⟩ := forall_mem_cons.1 h
    simp only [loadSegmentsL, only_bind, hi, segmentL_res]
    refine and_congr_right fun _ => forall₂_congr fun o ho => ?_
    cases o with
    | none => exact ih hseg h
    | some ph =>
      simp only [only_bind, only_pages_congr (hpage ph ho)]
      refine and_congr_right fun _ => forall₂_congr fun p _ => ?_
      split_ifs
      · exact ih hseg h
      · exact iff_of_true (only_pure _) (only_pure _)

/-- apart from the header and the entry point, a load reads in the loop over the segments -/
theorem only_load {k : Kern} (hheader : Only P (headerL img))
    (hentry : ∀ eh, header img = .ok (some eh) → Only P (fieldL img 8 24#64)) :
    Only P (elfLoadL img k) ↔ ∀ eh, header img = .ok (some eh) →
      Only P (loadSegmentsL img eh (List.range eh.phnum) ⟨k, []⟩) := by
  rw [elfLoadL, only_bind, and_iff_right hheader, headerL_res]
  constructor
  · exact fun h eh heh => (only_bind.1 (h (some eh) heh)).1
  · intro h o ho
    cases o with
    | none => exact only_pure _
    | some eh =>
      refine (h eh ho).bind fun p _ => ?_
      dsimp only
      split_ifs
      · exact only_pure _
      · exact (hentry eh ho).bind fun _ _ => only_pure _

end Pages

/-! ## The whole load -/

/-- in every segment, the pages with bytes from the file start in the image -/
def SegmentsInside (img : Image) (eh : Ehdr) : Prop :=
  ∀ i < eh.phnum, ∀ ph, segment img eh i = .ok (some ph) → ∀ va ∈ ph.pages,
    ph.offset ≤ ph.fileOff va → va < ph.vaddr + ph.filesz → ph.fileOff va ≤ img.len

/-- **The loader reads nothing outside the image** -/
def ReadsInside (img : Image) : Prop :=
  ∀ eh, header img = .ok (some eh) → eh.phoff ≤ img.len ∧ SegmentsInside img eh

section Same

variable {img img' : Image} {eh : Ehdr} {n : ℕ} {off : U64}

theorem field_same (h : ∀ j < n, img'.get (off + BitVec.ofNat 64 j) = img.get (off + BitVec.ofNat 64 j)) :
    img'.field n off = img.field n off := by
  induction n generalizing off with
  | zero => rfl
  | succ n ih =>
    simp only [Nat.forall_lt_succ_left, addr_zero, addr_succ] at h
    rw [Image.field, Image.field, h.1, ih h.2]

theorem header_same (h : img.Same img') : header img' = header img := by
  unfold header
  rw [h.len]
  by_cases hlen : img.len.toNat < ehdrSize
  · rw [if_pos hlen, if_pos hlen]
  rw [ehdrSize, Nat.not_lt] at hlen
  have hget : ∀ off : U64, off.toNat < 64 → img'.get off = img.get off := fun off ho =>
    h.get off (BitVec.lt_def.2 (by omega))
  have hfield : ∀ n (off : U64), off.toNat + n ≤ 64 → img'.field n off = img.field n off := fun n off ho =>
    field_same (h.gets (by omega))
  simp only [mapM_cons, mapM_nil, hget 0#64 (by decide), hget 1#64 (by decide), hget 2#64 (by decide),
    hget 3#64 (by decide), hget 4#64 (by decide), hfield 2 18#64 (by decide), hfield 2 56#64 (by decide),
    hfield 2 54#64 (by decide), hfield 8 32#64 (by decide)]

/-- a program header inside the image -/
theorem segment_same (h : img.Same img') (hlen : img.len.toNat ≤ 2 ^ 47) (heh : header img = .ok (some eh))
    (hoff : eh.phoff ≤ img.len) {i : ℕ} (hi : i < eh.phnum) : segment img' eh i = segment img eh i := by
  obtain ⟨hbase, hend⟩ := table_inside hlen heh hoff hi
  have hfield : ∀ n (o : U64), o.toNat + n ≤ phdrSize →
      img'.field n (eh.phoff + BitVec.ofNat 64 (i * phdrSize) + o) =
        img.field n (eh.phoff + BitVec.ofNat 64 (i * phdrSize) + o) := by
    intro n o ho
    refine field_same (h.gets ?_)
    rw [BitVec.toNat_add, hbase, Nat.mod_eq_of_lt (by omega)]
    omega
  have htype := hfield 4 0#64 (by decide)
  rw [BitVec.add_zero] at htype
  simp only [segment, htype, hfield 8 8#64 (by decide), hfield 8 16#64 (by decide), hfield 8 32#64 (by decide),
    hfield 8 40#64 (by decide)]

end Same

section Load

variable {img : Image} {eh : Ehdr} {ph : Phdr} {s : Load} {len : U64}

/-- the bytes of an image can be read -/
theorem field_ok (hbytes : img.Readable) {n : ℕ} {off : U64} (h : off.toNat + n ≤ img.len.toNat) :
    ∃ v, img.field n off = .ok v := by
  induction n generalizing off with
  | zero => exact ⟨0, rfl⟩
  | succ n ih =>
    obtain ⟨b, hb⟩ := Option.ne_none_iff_exists'.1 (hbytes off (BitVec.lt_def.2 (by omega)))
    obtain ⟨v, hv⟩ := @ih (off + 1) (by rw [offset_succ h]; omega)
    refine ⟨b.toNat + 256 * v, ?_⟩
    rw [Image.field, Image.get, hb, hv]
    rfl

theorem segment_ok {i : ℕ} (hbytes : img.Readable)
    (hbase : (eh.phoff + BitVec.ofNat 64 (i * phdrSize)).toNat = eh.phoff.toNat + i * phdrSize)
    (hend : eh.phoff.toNat + i * phdrSize + phdrSize ≤ img.len.toNat) : ∃ o, segment img eh i = .ok o := by
  have hfield : ∀ n (o : U64), o.toNat + n ≤ phdrSize →
      ∃ v, img.field n (eh.phoff + BitVec.ofNat 64 (i * phdrSize) + o) = .ok v := by
    intro n o ho
    refine field_ok hbytes ?_
    rw [BitVec.toNat_add, hbase, Nat.mod_eq_of_lt (by omega)]
    omega
  obtain ⟨type, htype⟩ := hfield 4 0#64 (by decide)
  obtain ⟨offset, hoffset⟩ := hfield 8 8#64 (by decide)
  obtain ⟨vaddr, hvaddr⟩ := hfield 8 16#64 (by decide)
  obtain ⟨filesz, hfilesz⟩ := hfield 8 32#64 (by decide)
  obtain ⟨memsz, hmemsz⟩ := hfield 8 40#64 (by decide)
  rw [BitVec.add_zero] at htype
  simp only [segment, htype, hoffset, hvaddr, hfilesz, hmemsz, ok_bind]
  split_ifs
  · exact ⟨_, rfl⟩
  · exact ⟨_, rfl⟩

end Load

/-! ## The copies that a load comes to -/

open Kern (Covered Stocked cost)

/-- of the pages `l`, after the pages `done`, each one that can be mapped with `free` pages and gets bytes from the file
starts in the image. A page is come to when those before it can be loaded. -/
def CopiesStart (img : Image) (free : ℕ) (done : List U64) (l : List (Phdr × U64)) : Prop :=
  ∀ pre ph va post, l = pre ++ (ph, va) :: post → Fits img done pre → ¬ Covered (after done pre) va →
    cost .fresh (va :: after done pre) ≤ free → Copied ph va → ph.fileOff va ≤ img.len

section Copies

variable {img : Image} {eh : Ehdr} {ph : Phdr} {va : U64} {s : Load} {k : Kern} {done : List U64} {free : ℕ}
  {l m : List (Phdr × U64)}

theorem copiesStart_cons : CopiesStart img free done ((ph, va) :: l) ↔
    (¬ Covered done va → cost .fresh (va :: done) ≤ free → Copied ph va → ph.fileOff va ≤ img.len) ∧
      (PageFits img ph done va → CopiesStart img free (va :: done) l) := by
  have hafter : ∀ pre, after done ((ph, va) :: pre) = after (va :: done) pre :=
    fun pre => after_append (l := [(ph, va)])
  constructor
  · refine fun h => ⟨h [] ph va l rfl trivial, fun hp pre ph' va' post hl hf => ?_⟩
    rw [← hafter]
    exact h ((ph, va) :: pre) ph' va' post (by rw [hl, cons_append]) ⟨hp, hf⟩
  · rintro ⟨h1, h2⟩ pre ph' va' post hl hf
    cases pre with
    | nil =>
      obtain ⟨hp, -⟩ := cons.inj hl
      obtain ⟨rfl, rfl⟩ := Prod.mk.inj hp
      exact h1
    | cons q pre =>
      obtain ⟨rfl, hrest⟩ := cons.inj hl
      rw [hafter]
      exact h2 hf.1 pre ph' va' post hrest hf.2

theorem copiesStart_append : CopiesStart img free done (l ++ m) ↔
    CopiesStart img free done l ∧ (Fits img done l → CopiesStart img free (after done l) m) := by
  induction l generalizing done with
  | nil =>
    have hnil : CopiesStart img free done [] := fun pre _ _ _ hc => absurd hc (by simp)
    exact ⟨fun h => ⟨hnil, fun _ => h⟩, fun h => h.2 trivial⟩
  | cons p l ih =>
    rw [cons_append, copiesStart_cons, copiesStart_cons, ih, Fits, show after done (p :: l) = after (p.2 :: done) l from
      after_append (l := [p]), and_assoc]
    refine and_congr_right fun _ => ⟨fun h => ⟨fun hp => (h hp).1, fun hf => (h hf.1).2 hf.2⟩, fun h hp => ?_⟩
    exact ⟨h.1 hp, fun hf => h.2 ⟨hp, hf⟩⟩

/-- nothing is come to once memory has run out -/
theorem copiesStart_of_few (h : free < cost .fresh done) : CopiesStart img free done l := by
  intro pre ph va post _ _ _ hc
  have : cost .fresh done ≤ cost .fresh (va :: after done pre) :=
    Kern.cost_le_append (va :: (pre.map Prod.snd).reverse) done
  omega

/-- what is read after the pages `l` -/
theorem Accounts.starts {x : Except Stop (Bool × Load)} {P : Bool × Load → Prop}
    (hx : Accounts lowerHalf .fresh img k done l True x) (hfalse : ∀ s, P (false, s))
    (ih : ∀ s, Stocked lowerHalf .fresh k s.kern (after done l) →
      (P (true, s) ↔ CopiesStart img k.pmm.freeSet.card (after done l) m)) :
    (∀ r, x = .ok r → P r) ↔ (Fits img done l → CopiesStart img k.pmm.freeSet.card (after done l) m) := by
  have hspilt : ¬ Spilt .fresh img done l := fun ⟨⟨_, _, hc⟩, _⟩ => Kern.not_spills_fresh hc.2
  constructor
  · intro h hfits
    by_cases hfew : k.pmm.freeSet.card < cost .fresh (after done l)
    · exact copiesStart_of_few hfew
    obtain ⟨⟨d, t⟩, hrun, htrue, hno⟩ := hx.exists_ok fun e he => hfew (he.2 trivial ⟨fun _ _ hc => hc, hfits⟩)
    cases d with
    | false => exact absurd ((hno rfl).resolve_right hspilt) hfew
    | true => exact (ih t ((htrue rfl).resolve_right hspilt).2).1 (h _ hrun)
  · rintro h ⟨d, t⟩ hrun
    cases d with
    | false => exact hfalse t
    | true =>
      obtain ⟨⟨-, hfits⟩, hs⟩ := (((hx.of_eq hrun).1 rfl).resolve_right hspilt)
      exact (ih t hs).2 (h hfits.2)

theorem starts_page_iff (h : Stocked lowerHalf .fresh k s.kern done) (hva : va < userEnd) :
    Only (Starts img.len) (loadPageL img ph va s) ↔ (¬ Covered done va →
      cost .fresh (va :: done) ≤ k.pmm.freeSet.card → Copied ph va → ph.fileOff va ≤ img.len) := by
  have hleft := h.left
  obtain ⟨pa, p, halloc, hcase⟩ := Pmm.pmmAlloc_spec h.trees.pmm
  have hk : s.kern.pmmAlloc = .ok (pa, s.kern.setPmm p) := by rw [Kern.pmmAlloc, halloc]; rfl
  simp only [loadPageL, only_bind, only_lift, true_and, lift_res, hk, Except.ok.injEq, forall_eq']
  rcases hcase with ⟨rfl, rfl, hempty⟩ | ⟨t, ht, rfl, hT⟩
  · rw [hempty, Finset.card_empty] at hleft
    refine iff_of_true (only_pure _) fun _ hc => ?_
    rw [cost] at hc
    omega
  obtain ⟨h0, hidx⟩ := Pmm.pageIdx_of_free h.trees.pmm ht
  have hmap := h.attached (fun _ => 0) Kern.lowerHalf_nodup (Kern.within_user hva).1 ht hT halloc pageFlags_user.1
    pageFlags_write
  rw [if_neg h0, hidx]
  split_ifs with hcopy
  · simp only [only_bind, only_lift, only_note, only_pure, true_and, implies_true, and_true, starts_copyIn, lift_res]
    constructor
    · intro hstart hcov hroom _
      obtain ⟨k1, hrun, -⟩ := hmap.exists_ok fun e he => by
        rcases he with ⟨-, hc⟩ | hc | ⟨-, -, hfew⟩
        · exact hcov hc
        · exact hc
        · omega
      exact hstart k1 hrun
    · intro hstart k1 hrun
      obtain ⟨-, hcov, h1⟩ := hmap.of_eq hrun
      exact hstart hcov (by have := h1.left; omega) hcopy
  · simp only [only_bind, only_lift, only_pure, true_and, implies_true, true_iff]
    exact fun _ _ hc => absurd hc hcopy

theorem starts_pages_iff (h : Stocked lowerHalf .fresh k s.kern done) (hcr3 : frame k.cr3 = k.pml4) {vas : List U64}
    (hvas : ∀ va ∈ vas, va < userEnd) : Only (Starts img.len) (loadPagesL img ph vas s) ↔
      CopiesStart img k.pmm.freeSet.card done (vas.map fun va => (ph, va)) := by
  induction vas generalizing s done with
  | nil => exact iff_of_true (only_pure _) fun pre _ _ _ hc => absurd hc (by simp)
  | cons va vas ih =>
    obtain ⟨hva, hvas⟩ := forall_mem_cons.1 hvas
    rw [loadPagesL, only_bind, map_cons, copiesStart_cons, starts_page_iff h hva, loadPageL_res]
    refine and_congr_right fun _ => ?_
    have hx := @loadPage_account img ph lowerHalf .fresh k s done va h Kern.lowerHalf_nodup hcr3 (Kern.within_user hva)
    refine (hx.starts (fun _ => only_pure _) fun t ht => ih ht hvas).trans ?_
    rw [Fits, Fits, and_true]
    rfl

theorem starts_segments_iff (h : Stocked lowerHalf .fresh k s.kern done) (hcr3 : frame k.cr3 = k.pml4) {is : List ℕ}
    (hread : HeadersRead img eh is) (huser : ∀ ph ∈ segments img eh is, ∀ va ∈ ph.pages, va < userEnd) :
    Only (Starts img.len) (loadSegmentsL img eh is s) ↔
      CopiesStart img k.pmm.freeSet.card done (targets (segments img eh is)) := by
  induction is generalizing s done with
  | nil => exact iff_of_true (only_pure _) fun pre _ _ _ hc => absurd hc (by simp [segments, targets])
  | cons i is ih =>
    obtain ⟨⟨o, ho⟩, hread⟩ := forall_mem_cons.1 hread
    rw [loadSegmentsL, only_bind, and_iff_right starts_segment, segmentL_res, ho]
    simp only [Except.ok.injEq, forall_eq']
    cases o with
    | none =>
      have hskip : segments img eh (i :: is) = segments img eh is := filterMap_cons_none (by rw [ho])
      rw [hskip] at huser ⊢
      exact ih h hread huser
    | some ph =>
      have hcons : segments img eh (i :: is) = ph :: segments img eh is := filterMap_cons_some (by rw [ho])
      rw [hcons, forall_mem_cons] at huser
      have hx := @loadTargets_account img lowerHalf
        .fresh k s done (ph.pages.map fun va => (ph, va)) h Kern.lowerHalf_nodup
        hcr3 (forall_mem_map.2 fun va hva => Kern.within_user (huser.1 va hva))
      rw [← loadPages_eq] at hx
      rw [only_bind, hcons, targets, flatMap_cons, copiesStart_append, starts_pages_iff h hcr3 huser.1, loadPagesL_res]
      exact and_congr_right fun _ => hx.starts (fun _ => only_pure _) fun t ht => ih ht hread huser.2

end Copies

/-- **What elf_load reads.** All bytes read lie in the image and no copy is longer than a page, just if an accepted
header has its table start in the image and every copy made starts there. For the copies it is enough that the pages of
all segments do. In the user half of a new space the copies made are those of the pages that `CopiesStart` tells, from
the image and the number of pages left. -/
theorem elf_load_inside (img : Image) (k : Kern) (hlen : img.len.toNat ≤ 2 ^ 47) :
    (elfLoadL img k).res = elfLoad img k ∧
      (Only (Inside img.len) (elfLoadL img k) ↔
        (∀ eh, header img = .ok (some eh) → eh.phoff ≤ img.len) ∧ Only (Starts img.len) (elfLoadL img k)) ∧
      ((∀ eh, header img = .ok (some eh) → eh.phoff ≤ img.len ∧ SegmentsInside img eh) →
        Only (Inside img.len) (elfLoadL img k)) ∧
      (k.FreshSpace → UserSegments img → img.Readable → (Only (Inside img.len) (elfLoadL img k) ↔
        ∀ eh, header img = .ok (some eh) → eh.phoff ≤ img.len ∧
          CopiesStart img k.pmm.freeSet.card [] (fileTargets img eh))) := by
  have hinside : Only (Inside img.len) (elfLoadL img k) ↔ _ := only_load inside_header fun eh heh =>
    inside_field (le_trans (by decide) (header_len heh))
  have hstarts : Only (Starts img.len) (elfLoadL img k) ↔ _ := only_load starts_header fun _ _ => starts_field
  have hiff : Only (Inside img.len) (elfLoadL img k) ↔
      (∀ eh, header img = .ok (some eh) → eh.phoff ≤ img.len) ∧ Only (Starts img.len) (elfLoadL img k) := by
    rw [hinside, hstarts, ← forall₂_and]
    refine forall₂_congr fun eh heh => ?_
    have hsegments : eh.phoff ≤ img.len → (Only (Inside img.len) (loadSegmentsL img eh (List.range eh.phnum) ⟨k, []⟩) ↔
        Only (Starts img.len) (loadSegmentsL img eh (List.range eh.phnum) ⟨k, []⟩)) := fun hoff =>
      only_segments_congr (fun i hi => iff_of_true (inside_segment hlen heh hoff (mem_range.1 hi)) starts_segment)
        fun _ _ _ _ _ _ _ => inside_page hlen
    refine ⟨fun h => ?_, fun h => (hsegments h.1).2 h.2⟩
    have hoff : eh.phoff ≤ img.len := by
      -- the table has a first header
      obtain ⟨n, hn⟩ := Nat.exists_eq_succ_of_ne_zero (header_accepted heh).1
      rw [hn, List.range_succ_eq_map] at h
      exact BitVec.le_of_lt (segment_first (only_bind.1 h).1)
    exact ⟨hoff, (hsegments hoff).1 h⟩
  refine ⟨elfLoadL_res img k, hiff, fun h => hiff.2 ⟨fun eh heh => (h eh heh).1, ?_⟩, fun hk huser hbytes => ?_⟩
  · refine hstarts.2 fun eh heh =>
      (only_segments_congr (Q := fun _ => True) (fun i _ => ?_) fun i hi ph hseg va hva s => ?_).2 fun _ _ => trivial
    · exact iff_of_true starts_segment fun _ _ => trivial
    · refine iff_of_true (starts_page fun hc => ?_) fun _ _ => trivial
      exact (h eh heh).2 i (mem_range.1 hi) ph hseg va hva hc.1 hc.2
  · rw [hiff, hstarts, ← forall₂_and]
    refine forall₂_congr fun eh heh => and_congr_right fun hoff => ?_
    exact starts_segments_iff hk.stockedFresh hk.cr3 (fun i hi => by
      obtain ⟨hbase, hend⟩ := table_inside hlen heh hoff (mem_range.1 hi)
      exact segment_ok hbytes hbase hend)
      fun ph hph va hva => by
        obtain ⟨i, hi, hseg⟩ := mem_segments.1 hph
        exact (huser eh heh i (mem_range.1 hi) ph hseg).page hva

/-! ### A segment behind the end of the file -/

/-- a file of two headers; its segment is said to have `filesz` bytes from `offset` on -/
def segmentFile (offset vaddr filesz memsz : ℕ) : List (BitVec 8) :=
  [0x7F#8, 0x45#8, 0x4C#8, 0x46#8, 2#8, 1#8, 1#8] ++ leBytes 9 0 ++ leBytes 2 2 ++ leBytes 2 0x3E ++ leBytes 4 1 ++
    leBytes 8 0x400000 ++ leBytes 8 64 ++ leBytes 8 0 ++ leBytes 4 0 ++ leBytes 2 64 ++ leBytes 2 56 ++ leBytes 2 1 ++
    leBytes 6 0 ++
    (leBytes 4 1 ++ leBytes 4 6 ++ leBytes 8 offset ++ leBytes 8 vaddr ++ leBytes 8 0 ++ leBytes 8 filesz ++
      leBytes 8 memsz ++ leBytes 8 4096)

/-- nothing can be read behind its end -/
def segmentImage (offset vaddr filesz memsz : ℕ) : Image :=
  ⟨120, fun off => if off.toNat < 120 then some ((segmentFile offset vaddr filesz memsz).getD off.toNat 0) else none⟩

theorem segmentImage_bytes (offset vaddr filesz memsz : ℕ) (off : U64)
    (h : off < (segmentImage offset vaddr filesz memsz).len) :
    (segmentImage offset vaddr filesz memsz).byte off ≠ none := by
  have hlt : off.toNat < 120 := BitVec.lt_def.1 h
  change (if off.toNat < 120 then _ else none) ≠ none
  rw [if_pos hlt]
  exact Option.some_ne_none _

/-- **One byte from offset 4096 of a file of 120 bytes**: the copy gets a length of almost 2^64 bytes and starts behind
the end. -/
theorem elf_load_reads_outside : ∃ img k off n, img.len.toNat ≤ 2 ^ 47 ∧ (∀ off, off < img.len → img.byte off ≠ none) ∧
    Access.copy off n ∈ (elfLoadL img k).log ∧ 4096 < n ∧ Access.read off ∈ (elfLoadL img k).log ∧ ¬ off < img.len := by
  refine ⟨segmentImage 4096 0x400000 1 1, SpaceSet.bootKern, 4096, 2 ^ 64 - 3976, by decide, segmentImage_bytes _ _ _ _,
    by decide +kernel, by decide, by decide +kernel, by decide⟩

/-- a file whose one byte of data is there -/
theorem elf_load_first_byte : Only (Inside 120) (elfLoadL (segmentImage 0 0x400000 1 1) SpaceSet.bootKern) := by
  refine (elf_load_inside (segmentImage 0 0x400000 1 1) SpaceSet.bootKern (by decide)).2.2.1 fun eh heh => ?_
  have hheader : header (segmentImage 0 0x400000 1 1) = .ok (some ⟨64, 1⟩) := by decide +kernel
  have hsegment : segment (segmentImage 0 0x400000 1 1) ⟨64, 1⟩ 0 = .ok (some ⟨0, 0x400000#64, 1, 1⟩) := by
    decide +kernel
  rw [hheader, Except.ok.injEq, Option.some.injEq] at heh
  subst heh
  refine ⟨by decide, fun i hi ph hph va hva _ _ => ?_⟩
  obtain rfl : i = 0 := Nat.lt_one_iff.1 hi
  rw [hsegment, Except.ok.injEq, Option.some.injEq] at hph
  subst hph
  have hpages : (⟨0, 0x400000#64, 1, 1⟩ : Phdr).pages = [0x400000#64] := by decide
  rw [hpages, List.mem_singleton] at hva
  rw [hva]
  decide

end Uix.Elf
