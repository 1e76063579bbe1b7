/-
What `kmalloc` hands out for every `size_t` (`src/core/memory/heap.c`).

The size check adds the header in 64 bits and the size needed is computed in 32, so a request within 16 bytes of 2^64
passes the check and asks for a block of fewer bytes than a header. Growing ends at the kernel image: its pages are
present, and `vmm_map` panics on them.

- `Serves`: what `kmalloc(n)` is for.
- `kmalloc_wraps`: a request that wraps is handed a block.
- `kmalloc_serves_iff`: every other request is served while the heap can grow.
-/
import Uix.Memory.HeapRun

namespace Uix.Heap

open Bytes Links Tiles List

/-- `_kernel_start` of `linker.ld`: the first page mapped behind the heap -/
def kernelStart : ℕ := 0xffffffff80100000

/-- `kmalloc`, where `vmm_map` panics if growing reaches the kernel image -/
def kmallocMapped (h : Heap) (n : ℕ) : Except Stop (ℕ × Heap) := do
  let (p, h') ← h.kmalloc n
  if kernelStart < h'.heapBrk then .error (.panic .vmmRemap) else pure (p, h')

/-- `r` is what `kmalloc(n)` is to come to: 0 and more than 32752 bytes are refused and the heap stays, anything else
gets a payload of at least `n` bytes in a block of its own, and the heap is partitioned again -/
def Serves (h : Heap) (used : List (ℕ × ℕ)) (n : ℕ) (r : Except Stop (ℕ × Heap)) : Prop :=
  if n = 0 ∨ 32752 < n then r = .ok (0, h) else
    ∃ b sz h' free', r = .ok (b + hdrSize, h') ∧ n + hdrSize ≤ sz ∧ Rep h' ((b, sz) :: used) free' ∧
      h'.heapBrk ≤ kernelStart

variable {h : Heap} {used free : List (ℕ × ℕ)} {n : ℕ}

theorem room_below_kernel {brk : ℕ} (hb : brk ≤ kernelStart) : brk + superPages * pageSize < 2 ^ 64 :=
  (Nat.add_le_add_right hb _).trans_lt (by decide)

theorem kmallocMapped_of_le {p : ℕ} {h' : Heap} (hk : h.kmalloc n = .ok (p, h')) (hb : h'.heapBrk ≤ kernelStart) :
    kmallocMapped h n = .ok (p, h') := by
  simp only [kmallocMapped, hk]
  exact if_neg (Nat.not_lt.2 hb)

theorem kmallocMapped_of_gt {p : ℕ} {h' : Heap} (hk : h.kmalloc n = .ok (p, h')) (hb : kernelStart < h'.heapBrk) :
    kmallocMapped h n = .error (.panic .vmmRemap) := by
  simp only [kmallocMapped, hk]
  exact if_pos hb

/-! ## Requests that wrap -/

/-- a request that wraps asks for fewer bytes than a header, so the first block of the list will do -/
theorem kmallocRounds_wraps {b : ℕ × ℕ} (rounds : ℕ) (hr : Rep h used (b :: free)) (hn : n < 2 ^ 64)
    (hw : 2 ^ 64 ≤ n + hdrSize) : ∃ h', kmallocRounds (rounds + 1) h n = .ok (b.1 + hdrSize, h') := by
  have hdr : hdrSize = 16 := rfl
  have hmax : heapMax = 32768 := rfl
  have hc : ¬ (n = 0 ∨ heapMax < (n + hdrSize) % 2 ^ 64) := by omega
  have hneed : (n % 2 ^ 32 + hdrSize) % 2 ^ 32 < hdrSize := by omega
  obtain ⟨hb, hb0, _⟩ := chain_cons.1 hr.chain
  obtain ⟨hlt, hsz⟩ := hr.hdr b (by simp)
  rw [kmallocRounds, if_neg hc]
  simp only
  rw [kmallocScan, hb, if_neg hb0, if_neg (not_not.2 (hr.freeMagic b mem_cons_self)), hsz, if_pos (by omega)]
  exact ⟨_, rfl⟩

/-- **A request that wraps** is not refused. -/
theorem kmalloc_wraps (hr : Rep h used free) (hlim : h.heapBrk + superPages * pageSize < 2 ^ 64) (hn : n < 2 ^ 64)
    (hw : 2 ^ 64 ≤ n + hdrSize) : ∃ b h', h.kmalloc n = .ok (b + hdrSize, h') := by
  cases free with
  | nil =>
    -- an empty list: the heap grows, and the new superblock is the first block
    obtain ⟨h', hk⟩ := kmallocRounds_wraps 0 (addSuper_rep hr hlim).1 hn hw
    have hdr : hdrSize = 16 := rfl
    have hmax : heapMax = 32768 := rfl
    refine ⟨h.heapBrk, h', ?_⟩
    rw [kmalloc, kmallocRounds, if_neg (by omega)]
    simp only
    rw [kmallocScan, if_pos (chain_nil.1 hr.chain)]
    exact hk
  | cons b free =>
    obtain ⟨h', hk⟩ := kmallocRounds_wraps 1 hr hn hw
    exact ⟨b.1, h', hk⟩

/-! ## Every request -/

/-- a request that some free block can hold leaves `heap_brk` alone; otherwise the heap grows once -/
theorem kmalloc_brk (hr : Rep h used free) (hlim : h.heapBrk + superPages * pageSize < 2 ^ 64) (h0 : n ≠ 0)
    (hn : n ≤ 32752) : ∃ b sz h' free', h.kmalloc n = .ok (b + hdrSize, h') ∧ n + hdrSize ≤ sz ∧
      Rep h' ((b, sz) :: used) free' ∧
      h'.heapBrk = if ∃ c ∈ free, n + hdrSize ≤ c.2 then h.heapBrk else h.heapBrk + superPages * pageSize := by
  have hmax : n + hdrSize ≤ heapMax := Nat.add_le_add_right hn 16
  rcases kmallocRounds_succ 1 hr h0 hmax with ⟨pre, b, sz, post, h', rfl, _, hfit, h1, hbrk, h2⟩ | ⟨h1, hnone⟩
  · refine ⟨b, _, h', _, h1, le_takenSize hfit, h2, ?_⟩
    rw [hbrk, if_pos ⟨(b, sz), by simp, hfit⟩]
  · obtain ⟨hr', hbrk⟩ := addSuper_rep hr hlim
    rcases kmallocRounds_succ 0 hr' h0 hmax with ⟨_, b, sz, _, h', _, _, hfit, h2, hbrk', h3⟩ | ⟨_, h2⟩
    · refine ⟨b, _, h', _, h1.trans h2, le_takenSize hfit, h3, ?_⟩
      rw [hbrk', hbrk, if_neg]
      rintro ⟨c, hc, hle⟩
      exact absurd (hnone c hc) (by omega)
    · have hs : heapMax < superPages * pageSize := by decide
      exact absurd (h2 _ mem_cons_self) (by simp only; omega)

/-- **`kmalloc` for every `size_t`.** It serves a request exactly if adding the header does not wrap and, should no free
block be large enough, the heap can grow by 64 KiB before the kernel image. -/
theorem kmalloc_serves_iff (h : Heap) (used free : List (ℕ × ℕ)) (n : ℕ) (hr : Rep h used free)
    (hb : h.heapBrk ≤ kernelStart) (hn : n < 2 ^ 64) :
    Serves h used n (kmallocMapped h n) ↔ n + hdrSize < 2 ^ 64 ∧
      (n = 0 ∨ 32752 < n ∨ (∃ c ∈ free, n + hdrSize ≤ c.2) ∨ h.heapBrk + superPages * pageSize ≤ kernelStart) := by
  have hlim := room_below_kernel hb
  have hdr : hdrSize = 16 := rfl
  have hmax : heapMax = 32768 := rfl
  by_cases hw : n + hdrSize < 2 ^ 64
  · by_cases hc : n = 0 ∨ 32752 < n
    · -- refused
      have hk : h.kmalloc n = .ok (0, h) := by
        rw [kmalloc, kmallocRounds, if_pos (by rw [Nat.mod_eq_of_lt hw]; omega)]
      rw [Serves, if_pos hc, kmallocMapped_of_le hk hb]
      exact ⟨fun _ => ⟨hw, by tauto⟩, fun _ => rfl⟩
    · obtain ⟨b, sz, h', free', hk, hsz, hr', hbrk⟩ := kmalloc_brk hr hlim (n := n) (by omega) (by omega)
      rw [Serves, if_neg hc]
      by_cases hroom : h'.heapBrk ≤ kernelStart
      · rw [kmallocMapped_of_le hk hroom]
        refine ⟨fun _ => ⟨hw, ?_⟩, fun _ => ⟨b, sz, h', free', rfl, hsz, hr', hroom⟩⟩
        split_ifs at hbrk with hfit
        · exact Or.inr (Or.inr (Or.inl hfit))
        · exact Or.inr (Or.inr (Or.inr (hbrk ▸ hroom)))
      · rw [kmallocMapped_of_gt hk (by omega)]
        constructor
        · rintro ⟨_, _, _, _, he, _⟩
          exact absurd he (by simp)
        · rintro ⟨_, h1 | h1 | h1 | h1⟩
          · exact absurd (Or.inl h1) hc
          · exact absurd (Or.inr h1) hc
          · rw [if_pos h1] at hbrk
            omega
          · split_ifs at hbrk <;> omega
  · -- the check passes, and a block is handed out
    obtain ⟨b, h', hk⟩ := kmalloc_wraps hr hlim hn (by omega)
    refine ⟨fun hs => ?_, fun hs => absurd hs.1 hw⟩
    rw [Serves, if_pos (by omega)] at hs
    rcases Nat.lt_or_ge kernelStart h'.heapBrk with hgt | hle
    · rw [kmallocMapped_of_gt hk hgt] at hs
      exact absurd hs (by simp)
    · rw [kmallocMapped_of_le hk hle] at hs
      simp only [Except.ok.injEq, Prod.mk.injEq] at hs
      omega

/-- 2^64 - 1 bytes asked for after `heap_init`: the block handed out has 15 bytes, and the free list starts inside its
header -/
theorem kmalloc_wraps_first :
    (kmallocMapped (heapInit fun _ => 0) (2 ^ 64 - 1)).map
    (fun r => (r.1, size r.2.mem (r.1 - hdrSize), r.2.freelist)) =
      .ok (heapVaBase + hdrSize, 15, heapVaBase + 15) := by
  decide +kernel

theorem kmalloc_serves_page : Serves (heapInit fun _ => 0) [] 4096 (kmallocMapped (heapInit fun _ => 0) 4096) :=
  (kmalloc_serves_iff _ [] _ 4096 (heapInit_rep _) (by decide) (by decide)).2
    ⟨by decide, Or.inr (Or.inr (Or.inl ⟨_, List.mem_cons_self, by decide⟩))⟩

end Uix.Heap
