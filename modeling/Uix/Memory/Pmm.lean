/-
The physical memory manager (`src/core/memory/pmm.c`): a bitmap allocator over the Limine memory map, and the page
reference counts used for copy-on-write.

The bitmap is the array of 64-bit words the source indexes (`BM_WORD`, `BM_BIT`), backed by `bmPages` reserved pages of
512 words each. Every access checks that its word lies in those pages and is `Stop.wild` otherwise, so "no access
leaves the reserved pages" is "no operation stops with `wild`". The reference counts are an array of one `u16` for each
page, absent until `refcounts_grow` allocates it. Indices and counters are natural numbers: they stay below 2^52.

`freed` is a ghost: the pages given back through `pmm_free`, latest first.
-/
import Uix.Lib.Machine
import Uix.Types

namespace Uix

/-- `LIMINE_MEMMAP_*` -/
inductive MemmapType where
  | usable | reserved | acpiReclaimable | acpiNvs | badMemory | bootloaderReclaimable | executableAndModules
  | framebuffer | reservedMapped
  deriving DecidableEq, Repr

/-- `struct limine_memmap_entry` -/
structure MemmapEntry where
  base : U64
  length : U64
  type : MemmapType
  deriving DecidableEq, Repr

/-- the static variables of `pmm.c` -/
structure Pmm where
  /-- 1 = free, 0 = used or reserved; one bit for each page -/
  bitmap : ℕ → U64
  bitmapPhys : PAddr
  /-- the pages reserved behind `bitmap` (`bm_pages` of `pmm_init`) -/
  bmPages : ℕ
  bitmapLen : ℕ
  totalPages : ℕ
  freeCount : ℕ
  nextFreeScan : ℕ
  /-- `NULL` until the first `pmm_ref` -/
  refcounts : Option (ℕ → ℕ)
  freed : List ℕ

namespace Pmm

/-- `page >> UIX_PAGE_SHIFT` -/
def pageIdx (page : PAddr) : ℕ := (page >>> 12).toNat

/-- `i << UIX_PAGE_SHIFT` -/
def pageAddr (i : ℕ) : PAddr := BitVec.ofNat 64 i <<< 12

/-! ## The bitmap -/

/-- `BM_WORD` -/
def bmWord (i : ℕ) : ℕ := i / 64

/-- `BM_BIT` -/
def bmBit (i : ℕ) : U64 := 1#64 <<< (i % 64)

/-- the bitmap word of page `i`, if it lies in the reserved pages -/
def word (p : Pmm) (i : ℕ) : Except Stop U64 :=
  if bmWord i < 512 * p.bmPages then .ok (p.bitmap (bmWord i)) else .error .wild

def setWord (p : Pmm) (i : ℕ) (w : U64) : Pmm := { p with bitmap := Function.update p.bitmap (bmWord i) w }

/-- `set_free` -/
def setFree (p : Pmm) (i : ℕ) : Except Stop Pmm := do
  let w ← p.word i
  pure (p.setWord i (w ||| bmBit i))

/-- `set_used` -/
def setUsed (p : Pmm) (i : ℕ) : Except Stop Pmm := do
  let w ← p.word i
  pure (p.setWord i (w &&& ~~~ bmBit i))

/-- `is_free` -/
def isFree (p : Pmm) (i : ℕ) : Except Stop Bool := do
  let w ← p.word i
  pure (w &&& bmBit i ≠ 0)

/-! ## Initialisation -/

/-- the top of usable memory (`max_pa`); `base + length` is 64-bit addition -/
def maxPa (mm : List MemmapEntry) : U64 :=
  mm.foldl (fun m e => if e.type ≠ .usable then m else if m < e.base + e.length then e.base + e.length else m) 0

/-- `bm_bytes` -/
def bmBytes (len : ℕ) : ℕ := (len + 7) / 8

/-- `bm_pages` -/
def bmPagesFor (len : ℕ) : ℕ := (bmBytes len + pageSize - 1) / pageSize

/-- `bm_page`: the base of the first usable entry with room for the bitmap and one page more, 0 if there is none -/
def bmPage (mm : List MemmapEntry) (pages : ℕ) : PAddr :=
  match mm.find? (fun e => e.type = .usable ∧ (pages + 1) * pageSize ≤ e.length.toNat) with
  | some e => e.base
  | none => 0

/-- `memset(bitmap, 0, n)`: the words whose first bytes are cleared keep their other bytes -/
def clearBytes (junk : ℕ → U64) (n : ℕ) : ℕ → U64 :=
  fun w => (junk w >>> (8 * min 8 (n - 8 * w))) <<< (8 * min 8 (n - 8 * w))

/-- `set_free(p); free_count++` -/
def markFree (p : Pmm) (i : ℕ) : Except Stop Pmm := do
  let p ← p.setFree i
  pure { p with freeCount := p.freeCount + 1 }

/-- `set_used(p); free_count--` -/
def reserve (p : Pmm) (i : ℕ) : Except Stop Pmm := do
  let p ← p.setUsed i
  pure { p with freeCount := p.freeCount - 1 }

/-- the pages `first .. first + count - 1` of an entry -/
def entryPages (e : MemmapEntry) : List ℕ := List.range' (pageIdx e.base) (pageIdx e.length)

/-- mark the pages of a usable entry free -/
def markEntry (p : Pmm) (e : MemmapEntry) : Except Stop Pmm :=
  if e.type ≠ .usable then pure p else (entryPages e).foldlM markFree p

/-- `pmm_init`; `junk` is what the memory taken for the bitmap held before -/
def pmmInit (mm : List MemmapEntry) (junk : ℕ → U64) : Except Stop Pmm := do
  let len := pageIdx (maxPa mm)
  let pages := bmPagesFor len
  let page := bmPage mm pages
  if page = 0 then .error (.panic .pmmNoBitmap) else
  let p : Pmm := ⟨clearBytes junk (bmBytes len), page, pages, len, len, 0, 0, none, []⟩
  let p ← mm.foldlM markEntry p
  (List.range' (pageIdx page) pages).foldlM reserve p

/-! ## Allocation -/

/-- the loop of `pmm_alloc` with `k` iterations left, at offset `n` from the cursor -/
def pmmAllocLoop (p : Pmm) : ℕ → ℕ → Except Stop (PAddr × Pmm)
  | 0, _ => .ok (0, p)
  | k + 1, n => do
    let i := (p.nextFreeScan + n) % p.bitmapLen
    if ← p.isFree i then
      let p ← p.setUsed i
      pure (pageAddr i, { p with nextFreeScan := (i + 1) % p.bitmapLen, freeCount := p.freeCount - 1 })
    else pmmAllocLoop p k (n + 1)

/-- `pmm_alloc` -/
def pmmAlloc (p : Pmm) : Except Stop (PAddr × Pmm) := pmmAllocLoop p p.bitmapLen 0

/-- the loop of `pmm_alloc_pages` with `k` iterations left, at page `i` after `run` free pages -/
def pmmAllocPagesLoop (p : Pmm) (n : ℕ) : ℕ → ℕ → ℕ → Except Stop (PAddr × Pmm)
  | 0, _, _ => .ok (0, p)
  | k + 1, i, run => do
    if ← p.isFree i then
      if run + 1 = n then
        let first := i + 1 - n
        let p ← (List.range' first n).foldlM setUsed p
        pure (pageAddr first, { p with freeCount := p.freeCount - n, nextFreeScan := (i + 1) % p.bitmapLen })
      else pmmAllocPagesLoop p n k (i + 1) (run + 1)
    else pmmAllocPagesLoop p n k (i + 1) 0

/-- `pmm_alloc_pages` -/
def pmmAllocPages (p : Pmm) (n : ℕ) : Except Stop (PAddr × Pmm) := pmmAllocPagesLoop p n p.bitmapLen 0 0

/-- `pmm_free` -/
def pmmFree (p : Pmm) (page : PAddr) : Except Stop Pmm := do
  let i := pageIdx page
  if p.bitmapLen ≤ i then .error (.panic .pmmDoubleFree) else
  if ← p.isFree i then .error (.panic .pmmDoubleFree) else
  let p ← p.setFree i
  pure { p with freeCount := p.freeCount + 1, freed := i :: p.freed }

/-! ## Reference counts -/

/-- `refcounts_grow`: an allocation that fails leaves `refcounts` at physical page 0 -/
def refcountsGrow (p : Pmm) : Except Stop Pmm :=
  match p.refcounts with
  | some _ => pure p
  | none => do
    let (pa, p) ← p.pmmAllocPages ((p.totalPages * 2 + pageSize - 1) / pageSize)
    if pa = 0 then .error .wild else pure { p with refcounts := some fun _ => 0 }

/-- `pmm_ref` -/
def pmmRef (p : Pmm) (page : PAddr) : Except Stop Pmm := do
  let i := pageIdx page
  if p.totalPages ≤ i then pure p else
  let p ← p.refcountsGrow
  match p.refcounts with
  | none => pure p
  | some r => pure (if r i < 0xFFFF then { p with refcounts := some (Function.update r i (r i + 1)) } else p)

/-- `pmm_unref` -/
def pmmUnref (p : Pmm) (page : PAddr) : Except Stop Pmm :=
  let i := pageIdx page
  match p.refcounts with
  | none => pure p
  | some r =>
    if p.totalPages ≤ i then pure p else
    if 1 < r i then pure { p with refcounts := some (Function.update r i (r i - 1)) } else
    pmmFree { p with refcounts := some (Function.update r i 0) } page

/-- `pmm_getref` -/
def pmmGetref (p : Pmm) (page : PAddr) : ℕ :=
  match p.refcounts with
  | none => 1
  | some r => if p.totalPages ≤ pageIdx page then 1 else r (pageIdx page)

end Pmm

end Uix
