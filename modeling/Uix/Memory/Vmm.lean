/-
The virtual memory manager (`src/core/memory/vmm.c`): four levels of page tables in physical memory, reached through the
HHDM.

Physical memory is a row of 512 words for each page frame. The static `pml4` is a pointer into the HHDM; here it is the
frame it points to, and `cr3` is the register that `load_cr3` writes. An entry's frame is what `PTE_MASK` leaves of it.
The loops over table entries are folds over `List.finRange 512` or a part of it, with every store of the source.

`invlpg` and the reports printed for faults have no effect on this state.
-/
import Uix.Lib.Radix
import Uix.Memory.Pmm

namespace Uix

/-! ## Entries -/

/-- `VMM_PRESENT` -/
def vmmPresent : U64 := 1#64 <<< 0

/-- `VMM_WRITE`, an `unsigned int` in the source -/
def vmmWrite : BitVec 32 := 1#32 <<< 1

/-- `VMM_USER` -/
def vmmUser : U64 := 1#64 <<< 2

/-- `VMM_NOEXEC` -/
def vmmNoexec : U64 := 1#64 <<< 63

def pteMask : U64 := 0x000FFFFFFFFFF000#64

def pdePs : U64 := 1#64 <<< 7

def pde2mMask : U64 := 0x000FFFFFFFE00000#64

/-- the mask of a 1 GiB leaf in `vmm_translate` -/
def pdpte1gMask : U64 := 0x000FFFFFC0000000#64

/-- `COW_MARK` -/
def cowMark : U64 := 1#64 <<< 9

/-- `e & flag`, as a condition -/
def has (e flag : U64) : Bool := e &&& flag ≠ 0

/-- the page frame of an entry -/
def frame (e : U64) : ℕ := Pmm.pageIdx (e &&& pteMask)

/-- `e & ~VMM_WRITE`: the complement is taken in 32 bits and then widened, so the upper half of the entry goes too -/
def stripWrite (e : U64) : U64 := e &&& (~~~ vmmWrite).setWidth 64

/-- the flags of an entry that points to a table -/
def tableFlags : U64 := vmmPresent ||| vmmWrite.setWidth 64 ||| vmmUser

/-! ## Indices -/

/-- nine bits of a virtual address -/
def slot (va : U64) (shift : ℕ) : Fin 512 := Fin.ofNat 512 ((va >>> shift) &&& 0x1FF#64).toNat

/-- `PML4_IDX` -/
def pml4Idx (va : U64) : Fin 512 := slot va 39

/-- `PDPT_IDX` -/
def pdptIdx (va : U64) : Fin 512 := slot va 30

/-- `PD_IDX` -/
def pdIdx (va : U64) : Fin 512 := slot va 21

/-- `PT_IDX` -/
def ptIdx (va : U64) : Fin 512 := slot va 12

/-- entries 0 .. 255 of a PML4 -/
def lowerHalf : List (Fin 512) := (List.finRange 512).filter (·.val < 256)

/-- entries 256 .. 511 of a PML4 -/
def upperHalf : List (Fin 512) := (List.finRange 512).filter (256 ≤ ·.val)

/-! ## The state -/

/-- physical memory: the words of each page frame -/
abbrev PhysMem := Radix.Mem U64 512

/-- physical memory, the page allocator and the static variables of `vmm.c` -/
structure Kern where
  mem : PhysMem
  pmm : Pmm
  /-- the frame that `pml4` points to -/
  pml4 : ℕ
  cr3 : PAddr
  kernelCr3 : PAddr

namespace Kern

/-- `table[i] = e` for the table in frame `f` -/
def set (k : Kern) (f : ℕ) (i : Fin 512) (e : U64) : Kern :=
  { k with mem := Function.update k.mem f (Function.update (k.mem f) i e) }

/-- `memset(page, 0, UIX_PAGE_SIZE)` -/
def zero (k : Kern) (f : ℕ) : Kern := { k with mem := Function.update k.mem f fun _ => 0 }

/-- `memcpy(dst, src, UIX_PAGE_SIZE)` -/
def copyPage (k : Kern) (dst src : ℕ) : Kern := { k with mem := Function.update k.mem dst (k.mem src) }

def setPmm (k : Kern) (p : Pmm) : Kern := { k with pmm := p }

def pmmAlloc (k : Kern) : Except Stop (PAddr × Kern) := do
  let (pa, p) ← k.pmm.pmmAlloc
  pure (pa, k.setPmm p)

def pmmFree (k : Kern) (page : PAddr) : Except Stop Kern := do
  let p ← k.pmm.pmmFree page
  pure (k.setPmm p)

def pmmRef (k : Kern) (page : PAddr) : Except Stop Kern := do
  let p ← k.pmm.pmmRef page
  pure (k.setPmm p)

def pmmUnref (k : Kern) (page : PAddr) : Except Stop Kern := do
  let p ← k.pmm.pmmUnref page
  pure (k.setPmm p)

/-! ## Building tables -/

/-- entry `i` of table `f`, if absent, is made to point to a new empty table -/
def ensureTable (k : Kern) (f : ℕ) (i : Fin 512) : Except Stop Kern :=
  if has (k.mem f i) vmmPresent then pure k else do
    let (t, k) ← k.pmmAlloc
    if t = 0 then .error (.panic .vmmOomTables) else
    pure ((k.zero (Pmm.pageIdx t)).set f i (t ||| tableFlags))

/-- `pt_for` (and `table_for`): the frame of the page table for `va`, or `NULL` -/
def ptFor (k : Kern) (va : U64) (create : Bool) : Except Stop (Option ℕ × Kern) := do
  if !has (k.mem k.pml4 (pml4Idx va)) vmmPresent && !create then pure (none, k) else
  let k ← k.ensureTable k.pml4 (pml4Idx va)
  let pdpt := frame (k.mem k.pml4 (pml4Idx va))
  if !has (k.mem pdpt (pdptIdx va)) vmmPresent && !create then pure (none, k) else
  let k ← k.ensureTable pdpt (pdptIdx va)
  let pdpte := k.mem pdpt (pdptIdx va)
  if has pdpte pdePs then pure (none, k) else
  let pd := frame pdpte
  let pde := k.mem pd (pdIdx va)
  if has pde vmmPresent && has pde pdePs then pure (none, k) else
  if !has pde vmmPresent && !create then pure (none, k) else
  let k ← k.ensureTable pd (pdIdx va)
  pure (some (frame (k.mem pd (pdIdx va))), k)

/-- `vmm_map`; a `NULL` from `pt_for` is used as a table -/
def vmmMap (k : Kern) (va : U64) (pa : PAddr) (flags : U64) : Except Stop Kern := do
  match ← k.ptFor va true with
  | (none, _) => .error .wild
  | (some pt, k) =>
    if has (k.mem pt (ptIdx va)) vmmPresent then .error (.panic .vmmRemap) else
    pure (k.set pt (ptIdx va) ((pa &&& pteMask) ||| flags))

/-- `vmm_unmap` -/
def vmmUnmap (k : Kern) (va : U64) : Except Stop Kern := do
  match ← k.ptFor va false with
  | (none, k) => pure k
  | (some pt, k) => pure (k.set pt (ptIdx va) 0)

/-- `vmm_translate`: `none` for -1 -/
def vmmTranslate (k : Kern) (va : U64) : Option PAddr :=
  let pml4e := k.mem k.pml4 (pml4Idx va)
  if !has pml4e vmmPresent then none else
  let pdpte := k.mem (frame pml4e) (pdptIdx va)
  if !has pdpte vmmPresent then none else
  if has pdpte pdePs then some ((pdpte &&& pdpte1gMask) + (va &&& 0x3FFFFFFF#64)) else
  let pde := k.mem (frame pdpte) (pdIdx va)
  if !has pde vmmPresent then none else
  if has pde pdePs then some ((pde &&& pde2mMask) + (va &&& 0x1FFFFF#64)) else
  let pte := k.mem (frame pde) (ptIdx va)
  if !has pte vmmPresent then none else
  some (pte &&& pteMask)

/-! ## Address spaces -/

/-- `vmm_switch` -/
def vmmSwitch (k : Kern) (pml4Pa : PAddr) : Kern := { k with pml4 := Pmm.pageIdx pml4Pa, cr3 := pml4Pa }

/-- `for (int i = 256; i < 512; i++) dst[i] = pml4[i];` -/
def copyUpper (k : Kern) (dst : ℕ) : Kern := upperHalf.foldl (fun k i => k.set dst i (k.mem k.pml4 i)) k

/-- `vmm_create_space` -/
def vmmCreateSpace (k : Kern) : Except Stop (PAddr × Kern) := do
  let (dst, k) ← k.pmmAlloc
  if dst = 0 then .error (.panic .vmmOomSpace) else
  pure (dst, (k.zero (Pmm.pageIdx dst)).copyUpper (Pmm.pageIdx dst))

/-! ## Fork -/

/-- entry `i` of `dst` gets a new table filled by `fill` from the table that `e` points to -/
def forkLink (fill : ℕ → ℕ → Kern → Except Stop Kern) (oom : Stop) (dst : ℕ) (i : Fin 512) (e : U64) (k : Kern) :
    Except Stop Kern := do
  let (t, k) ← k.pmmAlloc
  if t = 0 then .error oom else
  let k ← fill (frame e) (Pmm.pageIdx t) (k.zero (Pmm.pageIdx t))
  pure (k.set dst i (t ||| (e &&& 0xFFF#64)))

/-- the body of the loop of `fork_table` at `level` -/
def forkEntry (fill : ℕ → ℕ → Kern → Except Stop Kern) (level src dst : ℕ) (k : Kern) (i : Fin 512) :
    Except Stop Kern :=
  let e := k.mem src i
  if !has e vmmPresent then pure (k.set dst i 0) else
  if level = 0 ∨ (level = 1 ∧ has e pdePs) then
    if has e vmmUser then
      let cow := stripWrite e ||| cowMark
      ((k.set src i cow).set dst i cow).pmmRef (e &&& pteMask)
    else pure (k.set dst i e)
  else forkLink fill (.panic .vmmOomForkTables) dst i e k

/-- `fork_table` -/
def forkTable : ℕ → ℕ → ℕ → Kern → Except Stop Kern
  | 0, src, dst, k => (List.finRange 512).foldlM (forkEntry (fun _ _ k => pure k) 0 src dst) k
  | level + 1, src, dst, k => (List.finRange 512).foldlM (forkEntry (forkTable level) (level + 1) src dst) k

/-- the body of the loop of `vmm_fork_user_space`; the table is taken without a check for 0 -/
def forkTop (dst : ℕ) (k : Kern) (i : Fin 512) : Except Stop Kern :=
  if has (k.mem k.pml4 i) vmmPresent then forkLink (forkTable 2) .wild dst i (k.mem k.pml4 i) k else pure k

/-- `vmm_fork_user_space` -/
def vmmForkUserSpace (k : Kern) : Except Stop (PAddr × Kern) := do
  let (dst, k) ← k.pmmAlloc
  if dst = 0 then .error (.panic .vmmOomForkPml4) else
  let k ← lowerHalf.foldlM (forkTop (Pmm.pageIdx dst)) ((k.zero (Pmm.pageIdx dst)).copyUpper (Pmm.pageIdx dst))
  pure (dst, k)

/-! ## The boot tables -/

/-- the body of the loop of `clone_table` -/
def cloneEntry (clone : U64 → Kern → Except Stop (PAddr × Kern)) (level src dst : ℕ) (k : Kern) (i : Fin 512) :
    Except Stop Kern :=
  let e := k.mem src i
  if !has e vmmPresent then pure (k.set dst i 0) else
  if level = 0 ∨ has e pdePs then pure (k.set dst i e) else do
    let (child, k) ← clone e k
    pure (k.set dst i (child ||| (e &&& 0xFFF#64)))

/-- `clone_table`, with the calls it makes one level down -/
def cloneWith (clone : U64 → Kern → Except Stop (PAddr × Kern)) (level : ℕ) (srcEntry : U64) (k : Kern) :
    Except Stop (PAddr × Kern) := do
  let (dst, k) ← k.pmmAlloc
  if dst = 0 then .error (.panic .vmmOomClone) else
  let k ← (List.finRange 512).foldlM (cloneEntry clone level (frame srcEntry) (Pmm.pageIdx dst)) k
  pure (dst, k)

/-- `clone_table`; at level 0 it does not call itself -/
def cloneTable : ℕ → U64 → Kern → Except Stop (PAddr × Kern)
  | 0 => cloneWith (fun _ k => pure (0, k)) 0
  | level + 1 => cloneWith (cloneTable level) (level + 1)

/-- `vmm_init` -/
def vmmInit (k : Kern) : Except Stop Kern := do
  let (pml4Pa, k) ← cloneTable 3 k.cr3 k
  pure { k with pml4 := Pmm.pageIdx pml4Pa, kernelCr3 := pml4Pa, cr3 := pml4Pa }

/-! ## Page faults -/

/-- `vmm_page_fault`: 0 if the fault was a write to a copy-on-write page and is repaired, -1 otherwise -/
def vmmPageFault (k : Kern) (faultAddr err : U64) : Except Stop (ℤ × Kern) := do
  if ¬ (err &&& 3 = 3 ∧ faultAddr < 0x0000800000000000#64) then pure (-1, k) else
  let va := faultAddr &&& ~~~ 0xFFF#64
  match ← k.ptFor va false with
  | (none, k) => pure (-1, k)
  | (some pt, k) =>
    let pte := k.mem pt (ptIdx va)
    if !(has pte vmmPresent && has pte cowMark && has pte vmmUser) then pure (-1, k) else
    let oldp := pte &&& pteMask
    if 1 < k.pmm.pmmGetref oldp then
      let (newp, k) ← k.pmmAlloc
      if newp = 0 then .error (.panic .vmmOomCow) else
      let k ← (k.copyPage (Pmm.pageIdx newp) (Pmm.pageIdx oldp)).pmmUnref oldp
      pure (0, k.set pt (ptIdx va) ((newp &&& pteMask) ||| tableFlags ||| (pte &&& vmmNoexec)))
    else pure (0, k.set pt (ptIdx va) ((pte &&& ~~~ cowMark) ||| vmmWrite.setWidth 64))

end Kern

end Uix
