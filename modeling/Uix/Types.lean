/-
Machine words, page constants and the ways a kernel path ends without returning (`src/include/uix/types.h`, `panic` in
`src/core/kprintf.c`).

`Stop.panic` is a call of `panic`; the text of each call stands beside its constructor. `Stop.wild` is an access the
kernel was never given memory for: a bitmap word outside the reserved pages, physical page 0 used as a page because an
allocator's 0 was not checked, a local array written past its end, a copy that leaves the page mapped for it, a task
structure that is not allocated. What
the machine does from there on is not modelled, so nothing is claimed of it. `Stop.hang` is a loop that does not end,
`Stop.halt` the `hlt` loop of `schedule()`.
-/
import Mathlib

namespace Uix

/-- `u64` -/
abbrev U64 := BitVec 64

/-- `paddr_t` -/
abbrev PAddr := BitVec 64

/-- `UIX_PAGE_SIZE` -/
def pageSize : ℕ := 4096

/-- the first address behind the user half -/
def userEnd : U64 := 0x0000800000000000#64

/-- a page has 512 words -/
instance instNeZeroRow : NeZero 512 := ⟨by decide⟩

/-- the calls of `panic` -/
inductive Panic where
  | pmmNoBitmap        -- "pmm: no usable memory for bitmap (%u pages)"
  | pmmDoubleFree      -- "pmm: double free or bad page %p"
  | vmmOomTables       -- "vmm: OOM building tables"
  | vmmRemap           -- "vmm: remap of present page %p"
  | vmmOomSpace        -- "vmm: OOM creating address space"
  | vmmOomClone        -- "vmm: OOM cloning tables"
  | vmmOomForkTables   -- "vmm: OOM forking tables"
  | vmmOomForkPml4     -- "vmm: OOM forking PML4"
  | vmmOomCow          -- "vmm: OOM in COW fault"
  | heapOom            -- "heap: OOM growing"
  | heapCorrupted      -- "heap: corrupted freelist"
  | heapNonHeap        -- "heap: kfree of non-heap pointer %p"
  | taskNoBootstrap    -- "task: cannot allocate bootstrap task"
  | unhandled          -- "unhandled exception"
  deriving DecidableEq, Repr

/-- why a kernel path did not return -/
inductive Stop where
  | panic (p : Panic)
  | wild
  | hang
  | halt
  deriving DecidableEq, Repr

end Uix
