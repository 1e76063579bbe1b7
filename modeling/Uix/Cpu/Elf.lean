/-
The ELF loader (`src/core/cpu/elf.c`). It runs in the address space to be filled: a page is taken, cleared through the
HHDM and mapped, and the part of the file that belongs there is copied to its virtual address.

An image is what the kernel finds from a pointer on. It lies in the kernel's own read-only data or in pages of the file
buffer, so it does not change while it is loaded. The arithmetic of offsets and addresses is that of `u64`: sums may
wrap, and `copy = len - file_off` does when a segment starts behind the end of the file.

`touched` is a ghost: the addresses that were mapped and those a byte was stored to, latest first.
-/
import Uix.Memory.Mmu

namespace Uix

open Pmm (pageIdx pageAddr)

/-- an image of `len` bytes; from there on it is other memory of the kernel, or none -/
structure Image where
  len : U64
  byte : U64 → Option (BitVec 8)

/-- the flags of every user page -/
def pageFlags : U64 := vmmPresent ||| vmmWrite.setWidth 64 ||| vmmUser

namespace Image

/-- `img[off]` -/
def get (img : Image) (off : U64) : Except Stop (BitVec 8) :=
  match img.byte off with
  | some b => pure b
  | none => .error (.panic .unhandled)

/-- a field of `n` bytes, little endian -/
def field (img : Image) : ℕ → U64 → Except Stop ℕ
  | 0, _ => pure 0
  | n + 1, off => do
    let b ← img.get off
    let rest ← field img n (off + 1)
    pure (b.toNat + 256 * rest)

/-- `memcpy((void *)va, img + off, n)`, in the active space -/
def copyIn (img : Image) : ℕ → U64 → U64 → Kern → Except Stop Kern
  | 0, _, _, k => pure k
  | n + 1, va, off, k => do
    let b ← img.get off
    let k ← k.write false va b
    copyIn img n (va + 1) (off + 1) k

end Image

namespace Elf

/-! ## Headers -/

/-- the fields of `struct elf64_ehdr` that the loader goes by, after its checks -/
structure Ehdr where
  phoff : U64
  phnum : ℕ
  deriving DecidableEq, Repr

/-- the fields of `struct elf64_phdr` of a segment to be loaded -/
structure Phdr where
  offset : U64
  vaddr : U64
  filesz : U64
  memsz : U64
  deriving DecidableEq, Repr

/-- `PT_LOAD` -/
def ptLoad : ℕ := 1

/-- `sizeof(struct elf64_ehdr)` -/
def ehdrSize : ℕ := 64

/-- `sizeof(struct elf64_phdr)` -/
def phdrSize : ℕ := 56

/-- the checks of `elf_load`: `none` where it returns 0 -/
def header (img : Image) : Except Stop (Option Ehdr) := do
  if img.len.toNat < ehdrSize then pure none else
  let ident ← [0#64, 1#64, 2#64, 3#64].mapM img.get
  if ident ≠ [0x7F#8, 0x45#8, 0x4C#8, 0x46#8] then pure none else
  let cls ← img.get 4#64
  if cls ≠ 2 then pure none else
  let machine ← img.field 2 18#64
  if machine ≠ 0x3E then pure none else
  let phnum ← img.field 2 56#64
  let phentsize ← img.field 2 54#64
  if phnum = 0 ∨ phentsize < phdrSize then pure none else
  let phoff ← img.field 8 32#64
  let phoff := BitVec.ofNat 64 phoff
  if img.len < phoff + BitVec.ofNat 64 (phnum * phentsize) then pure none else
  pure (some ⟨phoff, phnum⟩)

/-- `ph[i]`, if it is `PT_LOAD`; the stride is the size of the structure, not `phentsize` -/
def segment (img : Image) (eh : Ehdr) (i : ℕ) : Except Stop (Option Phdr) := do
  let base := eh.phoff + BitVec.ofNat 64 (i * phdrSize)
  let type ← img.field 4 base
  if type ≠ ptLoad then pure none else
  let offset ← img.field 8 (base + 8#64)
  let vaddr ← img.field 8 (base + 16#64)
  let filesz ← img.field 8 (base + 32#64)
  let memsz ← img.field 8 (base + 40#64)
  pure (some ⟨.ofNat 64 offset, .ofNat 64 vaddr, .ofNat 64 filesz, .ofNat 64 memsz⟩)

namespace Phdr

/-- `start` -/
def start (ph : Phdr) : U64 := ph.vaddr &&& ~~~ 0xFFF#64

/-- `end` -/
def stop (ph : Phdr) : U64 := (ph.vaddr + ph.memsz + 0xFFF#64) &&& ~~~ 0xFFF#64

/-- the values of `va` in the loop over the pages: both ends are multiples of the page size -/
def pages (ph : Phdr) : List U64 :=
  (List.range ((ph.stop.toNat - ph.start.toNat) / pageSize)).map fun n => ph.start + BitVec.ofNat 64 (n * pageSize)

/-- `file_off` -/
def fileOff (ph : Phdr) (va : U64) : U64 := ph.offset + (va - ph.vaddr)

/-- `copy` -/
def copyLen (ph : Phdr) (len va : U64) : U64 :=
  let copy := ph.vaddr + ph.filesz - va
  let copy := if 4096#64 < copy then 4096#64 else copy
  if len < ph.fileOff va + copy then len - ph.fileOff va else copy

end Phdr

/-! ## Loading -/

structure Load where
  kern : Kern
  touched : List U64

/-- one page of a segment: false if there is no page left -/
def loadPage (img : Image) (ph : Phdr) (va : U64) (s : Load) : Except Stop (Bool × Load) := do
  let (pg, k) ← s.kern.pmmAlloc
  if pg = 0 then pure (false, { s with kern := k }) else
  let k ← (k.zero (pageIdx pg)).vmmMap va pg pageFlags
  if ph.offset ≤ ph.fileOff va ∧ va < ph.vaddr + ph.filesz then
    let n := (ph.copyLen img.len va).toNat
    let k ← img.copyIn n va (ph.fileOff va) k
    pure (true, ⟨k, (List.range n).map (fun j => va + BitVec.ofNat 64 j) ++ va :: s.touched⟩)
  else pure (true, ⟨k, va :: s.touched⟩)

def loadPages (img : Image) (ph : Phdr) : List U64 → Load → Except Stop (Bool × Load)
  | [], s => pure (true, s)
  | va :: vas, s => do
    let (done, s) ← loadPage img ph va s
    if done then loadPages img ph vas s else pure (false, s)

/-- the loop over the program headers -/
def loadSegments (img : Image) (eh : Ehdr) : List ℕ → Load → Except Stop (Bool × Load)
  | [], s => pure (true, s)
  | i :: is, s => do
    match ← segment img eh i with
    | none => loadSegments img eh is s
    | some ph => do
      let (done, s) ← loadPages img ph ph.pages s
      if done then loadSegments img eh is s else pure (false, s)

/-- `elf_load`: the entry point, or 0 -/
def elfLoad (img : Image) (k : Kern) : Except Stop (U64 × Load) := do
  match ← header img with
  | none => pure (0, ⟨k, []⟩)
  | some eh => do
    let (done, s) ← loadSegments img eh (List.range eh.phnum) ⟨k, []⟩
    if !done then pure (0, s) else
    let entry ← img.field 8 24#64
    pure (BitVec.ofNat 64 entry, s)

end Elf

end Uix
