/-
The kernel heap over whole runs: from `heap_init`, any sequence of allocations, frees of live pointers and client writes
inside live payloads.

- `Reach`: the states of the runs in which the free list is short enough at each `kfree` and `heap_brk` stays below the
  kernel image.
- `Partition`: the region of the heap is tiled by blocks, each live or on the free list exactly once.
- `heap_partition`: every reachable state has the partition, no legal operation panics or hangs, and an allocation of up
  to 32752 bytes succeeds after at most one grow.
-/
import Uix.Memory.HeapSpec

namespace Uix.Heap

open Bytes Links Tiles List Function

/-! ## Runs -/

/-- the end of the room for the heap: where the kernel image starts -/
def heapLimit : ℕ := 0xffffffff80000000

/-- the heap and the pointers handed out and not yet freed, with the sizes asked for -/
structure Sys where
  heap : Heap
  live : List (ℕ × ℕ)

inductive Op where
  | malloc (n : ℕ)
  /-- `kfree` of the `k`-th live pointer -/
  | free (k : ℕ)
  /-- a client writes at an offset into the `k`-th live payload -/
  | write (k off : ℕ) (v : BitVec 8)

def step (s : Sys) : Op → Except Stop Sys
  | .malloc n => do
    let (p, h) ← kmalloc s.heap n
    pure ⟨h, if p = 0 then s.live else (p, n) :: s.live⟩
  | .free k =>
    match s.live[k]? with
    | none => .ok s
    | some l => do
      let h ← kfree s.heap l.1
      pure ⟨h, s.live.eraseIdx k⟩
  | .write k off v =>
    match s.live[k]? with
    | none => .ok s
    | some l => .ok { s with heap := { s.heap with mem := Function.update s.heap.mem (l.1 + off) v } }

/-- what the callers keep to -/
def Legal (s : Sys) : Op → Prop
  | .malloc n => n + hdrSize < 2 ^ 64
  | .free _ => (collect s.heap.mem 256 s.heap.freelist).length ≤ 255
  | .write k off _ => ∀ l ∈ s.live[k]?, off + hdrSize < size s.heap.mem (l.1 - hdrSize)

/-- the states of legal runs from `heap_init` in which `heap_brk` stays below the limit -/
inductive Reach (mem : ℕ → BitVec 8) : Sys → Prop where
  | init : Reach mem ⟨heapInit mem, []⟩
  | step {s s' : Sys} (o : Op) : Reach mem s → Legal s o → step s o = .ok s' → s'.heap.heapBrk ≤ heapLimit →
    Reach mem s'

variable {used free : List (ℕ × ℕ)} {s : Sys} {k : ℕ}

/-! ## The partition -/

/-- the addresses of a block's header and of its payload -/
def header (b : ℕ × ℕ) : Set ℕ := Set.Ico b.1 (b.1 + hdrSize)
def payload (b : ℕ × ℕ) : Set ℕ := Set.Ico (b.1 + hdrSize) (b.1 + b.2)

/-- the region below `heap_brk` as live blocks and free blocks -/
structure Partition (s : Sys) (used free : List (ℕ × ℕ)) : Prop where
  tiling : Tiling heapVaBase s.heap.heapBrk (used ++ free)
  sizes : ∀ b ∈ used ++ free, size s.heap.mem b.1 = b.2
  once : ((used ++ free).map Prod.fst).Nodup
  usedMagic : ∀ b ∈ used, magic s.heap.mem b.1 = bmagicUsed
  freeMagic : ∀ b ∈ free, magic s.heap.mem b.1 = bmagicFree
  list : Chain (next s.heap.mem) s.heap.freelist (free.map Prod.fst)
  live : List.Forall₂ (fun b l => l.1 = b.1 + hdrSize ∧ l.2 + hdrSize ≤ b.2) used s.live
  payloads : used.Pairwise fun b c => Disjoint (payload b) (payload c)
  headers : ∀ b ∈ used, ∀ c ∈ used ++ free, Disjoint (payload b) (header c)

/-- the live pointers are the payloads of the blocks in use, and at least as long as asked for -/
structure RunInv (s : Sys) (used free : List (ℕ × ℕ)) : Prop where
  rep : Rep s.heap used free
  live : List.Forall₂ (fun b l => l.1 = b.1 + hdrSize ∧ l.2 + hdrSize ≤ b.2) used s.live

theorem RunInv.partition (h : RunInv s used free) : Partition s used free where
  tiling := h.rep.tiling
  sizes b hb := (h.rep.hdr b hb).2
  once := h.rep.tiling.nodup
  usedMagic := h.rep.usedMagic
  freeMagic := h.rep.freeMagic
  list := h.rep.chain
  live := h.live
  payloads := by
    refine (pairwise_append.1 h.rep.tiling.apart).1.imp fun {b c} hbc => ?_
    rw [Set.disjoint_left]
    rintro x ⟨h1, h2⟩ ⟨h3, h4⟩
    unfold Apart at hbc
    omega
  headers b hb c hc := by
    rw [Set.disjoint_left]
    rintro x ⟨h1, h2⟩ ⟨h3, h4⟩
    by_cases he : b = c
    · subst he
      omega
    · have h5 := h.rep.tiling.apart_of_ne (mem_append_left _ hb) hc he
      have h6 := (h.rep.hdr c hc).1
      unfold Apart at h5
      omega

/-- a heap whose headers are untouched represents the same blocks -/
theorem Rep.of_headers {h : Heap} (hr : Rep h used free) {mem : ℕ → BitVec 8}
    (hm : ∀ b ∈ used ++ free, ∀ x ∈ header b, mem x = h.mem x) : Rep { h with mem := mem } used free := by
  have key : ∀ b ∈ used ++ free, size mem b.1 = size h.mem b.1 ∧ magic mem b.1 = magic h.mem b.1 ∧
      next mem b.1 = next h.mem b.1 := fun b hb =>
    ⟨load_congr fun x h1 h2 => hm b hb x ⟨h1, by unfold hdrSize; omega⟩,
      load_congr fun x h1 h2 => hm b hb x ⟨by omega, by unfold hdrSize; omega⟩,
      load_congr fun x h1 h2 => hm b hb x ⟨by omega, by unfold hdrSize; omega⟩⟩
  refine ⟨hr.tiling, fun b hb => ?_, fun b hb => ?_, fun b hb => ?_, ?_, hr.base, hr.lim⟩
  · exact ⟨(hr.hdr b hb).1, (key b hb).1.trans (hr.hdr b hb).2⟩
  · exact (key b (mem_append_left _ hb)).2.1.trans (hr.usedMagic b hb)
  · exact (key b (mem_append_right _ hb)).2.1.trans (hr.freeMagic b hb)
  · refine (chain_congr fun x hx => ?_).2 hr.chain
    obtain ⟨c, hc, rfl⟩ := mem_map.1 hx
    exact (key c (mem_append_right _ hc)).2.2

/-- the block behind the `k`-th live pointer -/
theorem RunInv.block (h : RunInv s used free) {l : ℕ × ℕ} (hl : s.live[k]? = some l) :
    ∃ b, used[k]? = some b ∧ l.1 = b.1 + hdrSize ∧ l.2 + hdrSize ≤ b.2 := by
  obtain ⟨hk, rfl⟩ := List.getElem?_eq_some_iff.1 hl
  have hk' : k < used.length := h.live.length_eq ▸ hk
  exact ⟨used[k], List.getElem?_eq_getElem hk', List.forall₂_iff_get.1 h.live |>.2 k hk' hk⟩

/-- the heap with that block in front -/
theorem RunInv.block_front (h : RunInv s used free) {l : ℕ × ℕ} (hl : s.live[k]? = some l) :
    ∃ b, used[k]? = some b ∧ l.1 = b.1 + hdrSize ∧ Rep s.heap (b :: used.eraseIdx k) free := by
  obtain ⟨b, hb, hlb, _⟩ := h.block hl
  obtain ⟨hlt, rfl⟩ := List.getElem?_eq_some_iff.1 hb
  exact ⟨_, hb, hlb, h.rep.perm_used (getElem_cons_eraseIdx_perm hlt).symm⟩

/-! ## Steps -/

theorem forall₂_eraseIdx {α β : Type} {R : α → β → Prop} {l : List α} {l' : List β} (h : List.Forall₂ R l l') (k : ℕ) :
    List.Forall₂ R (l.eraseIdx k) (l'.eraseIdx k) := by
  induction h generalizing k with
  | nil => simp
  | cons hab h ih =>
    cases k with
    | zero => simpa using h
    | succ k => simpa using ⟨hab, ih k⟩

section Step

variable {s : Sys} {used free : List (ℕ × ℕ)}

theorem step_malloc (h : RunInv s used free) (hlim : s.heap.heapBrk + superPages * pageSize < 2 ^ 64) {n : ℕ}
    (hn : n + hdrSize < 2 ^ 64) : ∃ s' used' free', step s (.malloc n) = .ok s' ∧ RunInv s' used' free' := by
  rcases kmalloc_rep h.rep hn hlim with ⟨_, h1⟩ | ⟨_, _, b, got, h', free', h1, h2, h3, _⟩
  · refine ⟨s, used, free, ?_, h⟩
    simp only [step, h1]
    rfl
  · refine ⟨⟨h', (b + hdrSize, n) :: s.live⟩, (b, got) :: used, free', ?_, h3, h.live.cons ⟨rfl, h2⟩⟩
    simp only [step, h1]
    rfl

theorem step_free (h : RunInv s used free) (hl : (collect s.heap.mem 256 s.heap.freelist).length ≤ 255) :
    ∃ s' used' free', step s (.free k) = .ok s' ∧ RunInv s' used' free' := by
  cases hk : s.live[k]? with
  | none => exact ⟨s, used, free, by simp only [step, hk], h⟩
  | some l =>
    obtain ⟨b, _, hlb, hr⟩ := h.block_front hk
    obtain ⟨h', t, cs, h1, h2, _⟩ := kfree_rep hr hl
    refine ⟨⟨h', s.live.eraseIdx k⟩, _, _, ?_, h2, forall₂_eraseIdx h.live k⟩
    simp only [step, hk, hlb, h1]
    rfl

theorem step_write (h : RunInv s used free) {off : ℕ} {v : BitVec 8} (hl : Legal s (.write k off v)) :
    ∃ s' used' free', step s (.write k off v) = .ok s' ∧ RunInv s' used' free' := by
  cases hk : s.live[k]? with
  | none => exact ⟨s, used, free, by simp only [step, hk], h⟩
  | some l =>
    obtain ⟨b, hb, hlb, _⟩ := h.block hk
    have hbm : b ∈ used := mem_of_getElem? hb
    have hsz := (h.rep.hdr b (mem_append_left _ hbm)).2
    have hoff := hl l hk
    rw [hlb, Nat.add_sub_cancel, hsz] at hoff
    refine ⟨{ s with heap := { s.heap with mem := update s.heap.mem (l.1 + off) v } }, used, free,
      by simp only [step, hk], h.rep.of_headers fun c hc x hx => ?_, h.live⟩
    refine update_of_ne (fun he => ?_) _ _
    -- the address written lies in the payload of `b`, so in no header
    exact Set.disjoint_left.1 (h.partition.headers b hbm c hc) ⟨by omega, by omega⟩ hx

/-- **A legal operation succeeds and keeps the invariant.** -/
theorem step_inv (h : RunInv s used free) (hlim : s.heap.heapBrk + superPages * pageSize < 2 ^ 64) {o : Op}
    (hl : Legal s o) : ∃ s' used' free', step s o = .ok s' ∧ RunInv s' used' free' := by
  cases o with
  | malloc n => exact step_malloc h hlim hl
  | free k => exact step_free h hl
  | write k off v => exact step_write h hl

end Step

theorem room_below_limit {brk : ℕ} (hb : brk ≤ heapLimit) : brk + superPages * pageSize < 2 ^ 64 :=
  (Nat.add_le_add_right hb _).trans_lt (by decide)

theorem reach_inv {mem : ℕ → BitVec 8} (h : Reach mem s) :
    s.heap.heapBrk ≤ heapLimit ∧ ∃ used free, RunInv s used free := by
  induction h with
  | init =>
    exact ⟨(by decide : heapVaBase + superPages * pageSize ≤ heapLimit), [], _, heapInit_rep mem, List.Forall₂.nil⟩
  | step o _ hl hs hb ih =>
    obtain ⟨hb', used, free, hinv⟩ := ih
    obtain ⟨s', used', free', hs', hinv'⟩ := step_inv hinv (room_below_limit hb') hl
    obtain rfl := Except.ok.inj (hs.symm.trans hs')
    exact ⟨hb, used', free', hinv'⟩

/-! ## The heap's partition invariant -/

/-- **Heap partition.** In every state of a legal run the region of the heap is tiled by blocks, each live (USED, not on
the list) or on the acyclic free list exactly once (FREE); live payloads are disjoint, clear of every header and as long
as asked for. No legal operation panics or hangs, and 1 to 32752 bytes are handed out after at most one grow. -/
theorem heap_partition (mem : ℕ → BitVec 8) (s : Sys) (hs : Reach mem s) :
    (∃ used free, Partition s used free) ∧
    (∀ o, Legal s o → ∃ s', step s o = .ok s') ∧
    (∀ n, 1 ≤ n → n ≤ 32752 → ∃ p h', kmalloc s.heap n = .ok (p, h') ∧ p ≠ 0 ∧
      (h'.heapBrk = s.heap.heapBrk ∨ h'.heapBrk = s.heap.heapBrk + superPages * pageSize)) := by
  obtain ⟨hb, used, free, hinv⟩ := reach_inv hs
  refine ⟨⟨used, free, hinv.partition⟩, fun o hl => ?_, fun n h1 h2 => ?_⟩
  · obtain ⟨s', _, _, hs', _⟩ := step_inv hinv (room_below_limit hb) hl
    exact ⟨s', hs'⟩
  · have hmax : heapMax = 32768 := rfl
    have hdr : hdrSize = 16 := rfl
    rcases kmalloc_rep hinv.rep (n := n) (by omega)
      (room_below_limit hb) with ⟨h3, _⟩ | ⟨_, _, b, got, h', free', h3, _, _, h4⟩
    · omega
    · exact ⟨_, h', h3, by omega, h4⟩

/-- a run that allocates 100 bytes -/
theorem reach_malloc (mem : ℕ → BitVec 8) : ∃ s, Reach mem s ∧ s.live.length = 1 := by
  have hlim : heapVaBase + superPages * pageSize + superPages * pageSize < 2 ^ 64 := by decide
  have hn : 100 + hdrSize < 2 ^ 64 := by decide
  rcases kmalloc_rep (heapInit_rep mem) hn hlim with
    ⟨h1, _⟩ | ⟨_, _, b, got, h', free', h1, _, _, h2⟩
  · exact absurd h1 (by decide)
  · refine ⟨⟨h', [(b + hdrSize, 100)]⟩, Reach.step (.malloc 100) Reach.init hn ?_ ?_, rfl⟩
    · simp only [step, h1]
      rfl
    · have : (heapInit mem).heapBrk = heapVaBase + superPages * pageSize := rfl
      have hle : heapVaBase + 2 * (superPages * pageSize) ≤ heapLimit := by decide
      simp only
      omega

theorem heap_partition_malloc : ∃ s, Reach (fun _ => 0) s ∧ s.live.length = 1 ∧ ∃ used free, Partition s used free := by
  obtain ⟨s, hs, hl⟩ := reach_malloc fun _ => 0
  exact ⟨s, hs, hl, (heap_partition (fun _ => 0) s hs).1⟩

end Uix.Heap
