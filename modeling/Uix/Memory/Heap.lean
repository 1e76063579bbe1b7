/-
The kernel heap (`src/core/memory/heap.c`): a first-fit free list threaded through the block headers, in memory.

The heap's memory is a byte memory; a block header is 16 bytes (`u32 size`, `u32 magic`, `struct block *next`), little
endian, at any byte address. `grow` moves `heap_brk`; the pages behind it come from the PMM and are mapped by `vmm_map`
(the PMM is not exhausted here), with whatever they held before.

Loops over the free list get as fuel the size of the heap in bytes, which no acyclic list inside it exceeds; running out
of it is `Stop.hang`. The retry of `kmalloc` after growing is the second round of `kmallocRounds`.
-/
import Uix.Lib.Bytes
import Uix.Types

namespace Uix

open Bytes

/-- the static variables of `heap.c` and the memory behind the heap -/
structure Heap where
  mem : ℕ → BitVec 8
  freelist : ℕ
  heapBrk : ℕ

namespace Heap

/-- `HEAP_VA_BASE` -/
def heapVaBase : ℕ := 0xffffffff40000000

/-- `HEAP_MAX` -/
def heapMax : ℕ := 32 * 1024

/-- `SUPER_PAGES` -/
def superPages : ℕ := 16

/-- `HDR_SIZE` -/
def hdrSize : ℕ := 16

/-- `BMAGIC_FREE` -/
def bmagicFree : ℕ := 0xFEEEF00D

/-- `BMAGIC_USED` -/
def bmagicUsed : ℕ := 0xDEADC0DE

/-! ## `struct block` -/

def size (m : ℕ → BitVec 8) (b : ℕ) : ℕ := load m b 4
def magic (m : ℕ → BitVec 8) (b : ℕ) : ℕ := load m (b + 4) 4
def next (m : ℕ → BitVec 8) (b : ℕ) : ℕ := load m (b + 8) 8

def setSize (h : Heap) (b v : ℕ) : Heap := { h with mem := store h.mem b 4 v }
def setMagic (h : Heap) (b v : ℕ) : Heap := { h with mem := store h.mem (b + 4) 4 v }
def setNext (h : Heap) (b v : ℕ) : Heap := { h with mem := store h.mem (b + 8) 8 v }

/-- `*prev = v`, where `prev` is `&freelist` (`none`) or `&b->next` -/
def setLink (h : Heap) : Option ℕ → ℕ → Heap
  | none, v => { h with freelist := v }
  | some b, v => h.setNext b v

/-! ## Growing -/

/-- `grow` -/
def grow (h : Heap) (npages : ℕ) : Heap := { h with heapBrk := h.heapBrk + npages * pageSize }

/-- `heap_init`; `mem` is what the pages held before -/
def heapInit (mem : ℕ → BitVec 8) : Heap :=
  let h := grow ⟨mem, 0, heapVaBase⟩ superPages
  let h := { h with freelist := heapVaBase }
  ((h.setSize heapVaBase (superPages * pageSize)).setMagic heapVaBase bmagicFree).setNext heapVaBase 0

/-- the new superblock goes in front of the free list -/
def addSuper (h : Heap) : Heap :=
  let h := grow h superPages
  let nb := h.heapBrk - superPages * pageSize
  let h := (h.setSize nb (superPages * pageSize)).setMagic nb bmagicFree
  { h.setNext nb h.freelist with freelist := nb }

/-! ## `kmalloc` -/

/-- take `need` bytes from the fitting block `b`, splitting it if the remainder is worth keeping -/
def take (h : Heap) (need : ℕ) (prev : Option ℕ) (b : ℕ) : Heap :=
  let h :=
    if hdrSize + 16 ≤ size h.mem b - need then
      let split := b + need
      let h := h.setSize split (size h.mem b - need)
      let h := h.setMagic split bmagicFree
      let h := h.setNext split (next h.mem b)
      let h := h.setSize b need
      h.setLink prev split
    else h.setLink prev (next h.mem b)
  (h.setMagic b bmagicUsed).setNext b 0

/-- the first-fit loop at block `b`, reached through `prev`; `none` when no block fits -/
def kmallocScan (h : Heap) (need : ℕ) : ℕ → Option ℕ → ℕ → Except Stop (Option (ℕ × Heap))
  | 0, _, _ => .error .hang
  | fuel + 1, prev, b =>
    if b = 0 then .ok none else
    if magic h.mem b ≠ bmagicFree then .error (.panic .heapCorrupted) else
    if need ≤ size h.mem b then .ok (some (b + hdrSize, h.take need prev b)) else
    kmallocScan h need fuel (some b) (next h.mem b)

/-- `kmalloc` with at most `rounds` rounds of its retry; arguments and sums are `size_t` and `u32` -/
def kmallocRounds : ℕ → Heap → ℕ → Except Stop (ℕ × Heap)
  | 0, _, _ => .error .hang
  | rounds + 1, h, n =>
    if n = 0 ∨ heapMax < (n + hdrSize) % 2 ^ 64 then .ok (0, h) else do
      let need := (n % 2 ^ 32 + hdrSize) % 2 ^ 32
      match ← kmallocScan h need (h.heapBrk - heapVaBase + 1) none h.freelist with
      | some r => pure r
      | none => kmallocRounds rounds h.addSuper n

/-- `kmalloc`: one try, and one more after growing -/
def kmalloc (h : Heap) (n : ℕ) : Except Stop (ℕ × Heap) := kmallocRounds 2 h n

/-! ## `kfree` -/

/-- the first `k` blocks of the free list from `it` on -/
def collect (m : ℕ → BitVec 8) : ℕ → ℕ → List ℕ
  | 0, _ => []
  | k + 1, it => if it = 0 then [] else it :: collect m k (next m it)

/-- the insertion sort by address; the sorted prefix is kept last element first, and each key moves down past the
larger ones -/
def sortArr (arr : List ℕ) : List ℕ := (arr.foldl (fun acc key => acc.orderedInsert (· ≥ ·) key) []).reverse

/-- one round of the loop that merges neighbours and rebuilds the list -/
def mergeStep (st : Heap × ℕ) (cur : ℕ) : Heap × ℕ :=
  let (h, tail) := st
  if tail ≠ 0 ∧ tail + size h.mem tail = cur then
    (h.setSize tail ((size h.mem tail + size h.mem cur) % 2 ^ 32), tail)
  else
    let h := h.setNext cur 0
    (if tail = 0 then { h with freelist := cur } else h.setNext tail cur, cur)

/-- `kfree`; `arr` has room for 256 pointers -/
def kfree (h : Heap) (p : ℕ) : Except Stop Heap :=
  if p = 0 then .ok h else
  let b := p - hdrSize
  if magic h.mem b ≠ bmagicUsed then .error (.panic .heapNonHeap) else
  let h := h.setMagic b bmagicFree
  let arr := collect h.mem 256 h.freelist
  if 256 ≤ arr.length then .error .wild else
  .ok ((sortArr (arr ++ [b])).foldl mergeStep ({ h with freelist := 0 }, 0)).1

end Heap

end Uix
