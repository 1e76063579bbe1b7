/-
What `kfree` makes of the free list (`src/core/memory/heap.c`).

- `freeBlocks`: the free list as memory has it.
- `coal_spaced`: the list rebuilt by `kfree` is in order of address, and no two of its blocks touch.
- `kfree_order_free`: freeing the same blocks in any two orders gives the same list.
- `kfree_lossless_iff`: in every state reached by allocating and freeing, `kfree` keeps to its array and loses nothing
  exactly if the list holds fewer than 256 blocks.
- `reached_holes`: runs that leave any number of blocks up to 256 on the list.
-/
import Uix.Memory.HeapAlloc

namespace Uix.Heap

open Bytes Links Tiles List

variable {h h' : Heap} {used free : List (ℕ × ℕ)} {t b : ℕ × ℕ} {cs : List (ℕ × ℕ)}

/-- the blocks on the free list, in its order -/
def freeBlocks (h : Heap) : List (ℕ × ℕ) :=
  (collect h.mem (h.heapBrk - heapVaBase) h.freelist).map fun b => (b, size h.mem b)

theorem Rep.freeBlocks_eq (hr : Rep h used free) : freeBlocks h = free := by
  have hlen : (free.map Prod.fst).length ≤ h.heapBrk - heapVaBase := by
    have := hr.tiling.length_le
    rw [length_append] at this
    rw [length_map]
    omega
  have hid : ∀ b ∈ free, ((fun a => (a, size h.mem a)) ∘ Prod.fst) b = id b := fun b hb =>
    Prod.ext rfl (hr.hdr b (mem_append_right _ hb)).2
  rw [freeBlocks, collect_eq _ hr.chain, take_of_length_le hlen, map_map, map_congr_left hid, map_id]

/-! ## The list that `kfree` rebuilds -/

theorem sortArr_sorted (arr : List ℕ) : (sortArr arr).Pairwise (· ≤ ·) := by
  have key : ∀ acc : List ℕ, acc.Pairwise (· ≥ ·) →
      (arr.foldl (fun acc key => acc.orderedInsert (· ≥ ·) key) acc).Pairwise (· ≥ ·) := by
    induction arr with
    | nil => exact fun acc h => h
    | cons a arr ih => exact fun acc h => ih _ (h.orderedInsert a acc)
  exact pairwise_reverse.2 (key [] List.Pairwise.nil)

/-- each block ends before the next one starts, or where it starts -/
def Ordered (l : List (ℕ × ℕ)) : Prop := l.Pairwise fun b c => b.1 + b.2 ≤ c.1

/-- blocks apart whose starts are in order are in order -/
theorem ordered_of_starts {l : List (ℕ × ℕ)} (hs : (l.map Prod.fst).Pairwise (· ≤ ·)) (ha : l.Pairwise Apart)
    (hp : ∀ b ∈ l, 0 < b.2) : Ordered l := by
  refine ((pairwise_map.1 hs).and ha).imp_of_mem fun {b c} hb hc hbc => ?_
  have h1 := hp b hb
  have h2 := hp c hc
  unfold Apart at hbc
  omega

theorem coal_ge {x : ℕ} (h : ∀ c ∈ t :: cs, x ≤ c.1) : ∀ b ∈ coal t cs, x ≤ b.1 := by
  induction cs generalizing t with
  | nil => exact h
  | cons c cs ih =>
    obtain ⟨ht, hcs⟩ := forall_mem_cons.1 h
    rw [coal]
    split_ifs
    · exact ih (forall_mem_cons.2 ⟨ht, (forall_mem_cons.1 hcs).2⟩)
    · exact forall_mem_cons.2 ⟨ht, ih hcs⟩

/-- **Merging neighbours** of an ordered list leaves no two blocks that touch. -/
theorem coal_spaced (h : Ordered (t :: cs)) : Spaced (coal t cs) := by
  induction cs generalizing t with
  | nil => exact pairwise_singleton _ _
  | cons c cs ih =>
    obtain ⟨ht, hcs⟩ := pairwise_cons.1 h
    have hc := (pairwise_cons.1 hcs).1
    rw [coal]
    split_ifs with he
    · refine ih (pairwise_cons.2 ⟨fun d hd => ?_, (pairwise_cons.1 hcs).2⟩)
      have := hc d hd
      simp only
      omega
    · refine pairwise_cons.2 ⟨fun b hb => coal_ge (forall_mem_cons.2 ⟨?_, fun d hd => ?_⟩) b hb, ih hcs⟩
      · have := ht c mem_cons_self
        omega
      · have h1 := ht c mem_cons_self
        have h2 := hc d hd
        omega

theorem coal_sum (t : ℕ × ℕ) (cs : List (ℕ × ℕ)) : ((coal t cs).map Prod.snd).sum = ((t :: cs).map Prod.snd).sum := by
  induction cs generalizing t with
  | nil => rfl
  | cons c cs ih =>
    rw [coal]
    split_ifs
    · rw [ih]
      simp only [map_cons, sum_cons]
      omega
    · rw [map_cons, sum_cons, ih]
      simp only [map_cons, sum_cons]

/-- no block of the list ends where one starts -/
def Untouching (l : List (ℕ × ℕ)) : Prop := ∀ b ∈ l, ∀ c ∈ l, b.1 + b.2 ≠ c.1

theorem coal_length_le (t : ℕ × ℕ) (cs : List (ℕ × ℕ)) : (coal t cs).length ≤ cs.length + 1 := by
  induction cs generalizing t with
  | nil => rfl
  | cons c cs ih =>
    rw [coal]
    split_ifs
    · exact (ih _).trans (Nat.le_succ _)
    · exact Nat.succ_le_succ (ih c)

theorem coal_length (h : Untouching (t :: cs)) : (coal t cs).length = cs.length + 1 := by
  induction cs generalizing t with
  | nil => rfl
  | cons c cs ih =>
    rw [coal, if_neg (h t mem_cons_self c (by simp)), length_cons, length_cons,
      ih fun b hb d hd => h b (mem_cons_of_mem _ hb) d (mem_cons_of_mem _ hd)]

theorem untouching_of_spaced {l : List (ℕ × ℕ)} (h : Spaced l) (hp : ∀ b ∈ l, 0 < b.2) : Untouching l := by
  induction l with
  | nil => exact fun b hb => absurd hb not_mem_nil
  | cons a l ih =>
    obtain ⟨ha, hl⟩ := pairwise_cons.1 h
    have h0 := hp a mem_cons_self
    intro b hb c hc
    rcases mem_cons.1 hb with rfl | hb' <;> rcases mem_cons.1 hc with rfl | hc'
    · omega
    · exact (ha c hc').ne
    · have := ha b hb'
      omega
    · exact ih hl (fun d hd => hp d (mem_cons_of_mem _ hd)) b hb' c hc'

/-! ## One `kfree` -/

/-- a `kfree` of the block `b` that succeeds, from a list `free` of fewer than 256 blocks -/
structure Freed (h h' : Heap) (used free : List (ℕ × ℕ)) (b : ℕ × ℕ) : Prop where
  rep : Rep h' used (freeBlocks h')
  spaced : Spaced (freeBlocks h')
  total : ((freeBlocks h').map Prod.snd).sum = (free.map Prod.snd).sum + b.2
  count_le : (freeBlocks h').length ≤ free.length + 1
  count : Untouching (b :: free) → (freeBlocks h').length = free.length + 1
  brk : h'.heapBrk = h.heapBrk

/-- **One `kfree`**: the new list is spaced, and as large as the old one and the block together. -/
theorem kfree_freed (hr : Rep h (b :: used) free) (hlen : free.length < 256) :
    ∃ h', kfree h (b.1 + hdrSize) = .ok h' ∧ Freed h h' used free b := by
  have hcol : (collect h.mem 256 h.freelist).length ≤ 255 := by
    rw [collect_eq 256 hr.chain, length_take, length_map]
    omega
  obtain ⟨h', t, cs, hk, hr', hperm, hstarts, hbrk⟩ := kfree_rep hr hcol
  have htiles : Tiling heapVaBase h.heapBrk (used ++ t :: cs) :=
    hr.tiling.perm (List.Perm.trans (by grind) (hperm.symm.append_left used))
  have hord : Ordered (t :: cs) := ordered_of_starts (hstarts ▸ sortArr_sorted _)
    (pairwise_append.1 htiles.apart).2.1 fun b hb => htiles.pos b (mem_append_right _ hb)
  have heq := hr'.freeBlocks_eq
  have hcount : cs.length + 1 = free.length + 1 := by simpa using hperm.length_eq
  refine ⟨h', hk, heq ▸ hr', heq ▸ coal_spaced hord, ?_, ?_, fun hu => ?_, hbrk⟩
  · rw [heq, coal_sum, (hperm.map Prod.snd).sum_eq]
    simp
  · rw [heq, ← hcount]
    exact coal_length_le t cs
  · have hu' : Untouching (t :: cs) := fun c hc d hd =>
      hu c (by have := hperm.mem_iff.1 hc; grind) d (by have := hperm.mem_iff.1 hd; grind)
    rw [heq, coal_length hu', hcount]

/-! ## Freeing several blocks -/

/-- the pointers to the payloads of blocks -/
def ptrs (D : List (ℕ × ℕ)) : List ℕ := D.map fun b => b.1 + hdrSize

/-- `kfree` of one pointer after the other -/
def kfreeAll (h : Heap) (ps : List ℕ) : Except Stop Heap := ps.foldlM kfree h

/-- fewer than 256 blocks are on the list at each `kfree` of `kfreeAll` -/
def Roomy : Heap → List ℕ → Prop
  | _, [] => True
  | h, p :: ps => (freeBlocks h).length < 256 ∧ ∀ h', kfree h p = .ok h' → Roomy h' ps

theorem kfreeAll_cons {p : ℕ} {ps : List ℕ} (hk : kfree h p = .ok h') : kfreeAll h (p :: ps) = kfreeAll h' ps := by
  rw [kfreeAll, foldlM_cons, hk]
  rfl

/-- blocks freed one after the other; the list is spaced after the first -/
theorem kfreeAll_freed {D rest : List (ℕ × ℕ)} (hr : Rep h (D ++ rest) free) (hroom : Roomy h (ptrs D)) :
    ∃ h', kfreeAll h (ptrs D) = .ok h' ∧ Rep h' rest (freeBlocks h') ∧ h'.heapBrk = h.heapBrk ∧
      (Spaced free ∨ D ≠ [] → Spaced (freeBlocks h')) := by
  induction D generalizing h free with
  | nil =>
    have heq := hr.freeBlocks_eq
    exact ⟨h, rfl, heq ▸ hr, rfl, fun hs => heq ▸ hs.resolve_right fun hne => hne rfl⟩
  | cons b D ih =>
    obtain ⟨hlen, hrest⟩ := hroom
    rw [hr.freeBlocks_eq] at hlen
    obtain ⟨h1, hk, hf⟩ := kfree_freed hr hlen
    obtain ⟨h', hk', hr', hbrk, hs⟩ := ih hf.rep (hrest h1 hk)
    exact ⟨h', (kfreeAll_cons hk).trans hk', hr', hbrk.trans hf.brk, fun _ => hs (Or.inl hf.spaced)⟩

/-- a list that stays below 256 blocks even if no two of them merge -/
theorem roomy_of_few {D rest : List (ℕ × ℕ)} (hr : Rep h (D ++ rest) free) (hlen : free.length + D.length ≤ 256) :
    Roomy h (ptrs D) := by
  induction D generalizing h free with
  | nil => trivial
  | cons b D ih =>
    rw [length_cons] at hlen
    refine ⟨by rw [hr.freeBlocks_eq]; omega, fun h1 hk => ?_⟩
    obtain ⟨h1', hk', hf⟩ := kfree_freed hr (by omega)
    obtain rfl := Except.ok.inj (hk.symm.trans hk')
    have := hf.count_le
    exact ih hf.rep (by omega)

/-- **Freeing is order-independent.** The free list after freeing live blocks does not depend on the order; it is in
order of address, no two of its blocks touch, and with no live block left it is the whole region. -/
theorem kfree_order_free (h : Heap) (used free D D' rest : List (ℕ × ℕ)) (hr : Rep h used free)
    (hused : used.Perm (D ++ rest)) (hD : D ≠ []) (hperm : D.Perm D') (hroom : Roomy h (ptrs D))
    (hroom' : Roomy h (ptrs D')) :
    ∃ h1 h2, kfreeAll h (ptrs D) = .ok h1 ∧ kfreeAll h (ptrs D') = .ok h2 ∧ freeBlocks h1 = freeBlocks h2 ∧
      Spaced (freeBlocks h1) ∧ (rest = [] → freeBlocks h1 = [(heapVaBase, h.heapBrk - heapVaBase)]) := by
  have hD' : D' ≠ [] := fun e => hD (List.perm_nil.1 (e ▸ hperm))
  obtain ⟨h1, hk1, hr1, hb1, hs1⟩ := kfreeAll_freed (hr.perm_used hused) hroom
  obtain ⟨h2, hk2, hr2, hb2, hs2⟩ := kfreeAll_freed (hr.perm_used (hused.trans (hperm.append_right rest))) hroom'
  have ht1 := hb1 ▸ hr1.tiling
  have ht2 := hb2 ▸ hr2.tiling
  refine ⟨h1, h2, hk1, hk2, ?_, hs1 (Or.inr hD), fun hnil => ?_⟩
  · exact ht1.spaced_unique ht2 (fun _ => Iff.rfl) (hs1 (Or.inr hD)) (hs2 (Or.inr hD'))
  · obtain ⟨b, hb⟩ := List.exists_mem_of_ne_nil D hD
    have hbd := hr.tiling.bounds (List.mem_append_left free (hused.mem_iff.2 (List.mem_append_left rest hb)))
    have hpos := hr.tiling.pos b (List.mem_append_left free (hused.mem_iff.2 (List.mem_append_left rest hb)))
    have hone : Tiling heapVaBase h.heapBrk ([] ++ [(heapVaBase, h.heapBrk - heapVaBase)]) := by
      have : Tiling heapVaBase (heapVaBase + (h.heapBrk - heapVaBase)) [(heapVaBase, h.heapBrk - heapVaBase)] :=
        Tiling.single (by omega)
      rwa [Nat.add_sub_cancel' hr.base] at this
    subst hnil
    exact ht1.spaced_unique hone (fun _ => Iff.rfl) (hs1 (Or.inr hD)) (List.pairwise_singleton _ _)

/-! ## Runs -/

/-- the states of runs from `heap_init` in which no request wraps and each `kfree` finds fewer than 256 blocks; a grow
that reaches the kernel image ends the run -/
inductive Reached (mem : ℕ → BitVec 8) : Sys → Prop where
  | init : Reached mem ⟨heapInit mem, []⟩
  | step {s s' : Sys} (o : Op) : Reached mem s → Legal s o → step s o = .ok s' → s'.heap.heapBrk ≤ kernelStart →
    Reached mem s'

theorem reached_inv {mem : ℕ → BitVec 8} {s : Sys} (hs : Reached mem s) :
    s.heap.heapBrk ≤ kernelStart ∧ ∃ used free, RunInv s used free := by
  induction hs with
  | init =>
    exact ⟨(by decide : heapVaBase + superPages * pageSize ≤ kernelStart), [], _, heapInit_rep mem, List.Forall₂.nil⟩
  | step o _ hl hstep hb ih =>
    obtain ⟨hb', used, free, hinv⟩ := ih
    obtain ⟨s', used', free', hstep', hinv'⟩ := step_inv hinv (room_below_kernel hb') hl
    obtain rfl := Except.ok.inj (hstep.symm.trans hstep')
    exact ⟨hb, used', free', hinv'⟩

/-- how many pointers `kfree` stores in `arr` -/
def kfreeStores (h : Heap) : ℕ := (collect h.mem 256 h.freelist).length + 1

/-- `kfree(p)` keeps to the 256 entries of `arr`, and afterwards the list has the bytes of `p`'s block more, and every
byte it had -/
def Lossless (h : Heap) (p : ℕ) : Prop :=
  kfreeStores h ≤ 256 ∧ ∃ h', kfree h p = .ok h' ∧
    ((freeBlocks h').map Prod.snd).sum = ((freeBlocks h).map Prod.snd).sum + size h.mem (p - hdrSize) ∧
    ∀ x, Covers (freeBlocks h) x → Covers (freeBlocks h') x

/-- with 256 blocks on the list `kfree` leaves its array -/
theorem RunInv.kfree_wild {s : Sys} {l : ℕ × ℕ} (hinv : RunInv s used free) (hl : l ∈ s.live)
    (hlen : 256 ≤ free.length) : kfree s.heap l.1 = .error .wild := by
  obtain ⟨k, hk⟩ := getElem?_of_mem hl
  obtain ⟨b, _, hlb, hr⟩ := hinv.block_front hk
  have hm : magic s.heap.mem b.1 = bmagicUsed := hr.usedMagic b mem_cons_self
  have hp0 : b.1 + hdrSize ≠ 0 := by
    unfold hdrSize
    omega
  unfold kfree
  rw [hlb, if_neg hp0, Nat.add_sub_cancel]
  simp only
  rw [if_neg (not_not.2 hm), show (s.heap.setMagic b.1 bmagicFree).freelist = s.heap.freelist from rfl,
    hr.collect_setMagic 256, if_pos (by rw [length_take, length_map]; omega)]

theorem Rep.kfreeStores_eq (hr : Rep h used free) : kfreeStores h = min 256 free.length + 1 := by
  rw [kfreeStores, collect_eq 256 hr.chain, length_take, length_map]

/-- **`kfree` and fragmentation.** In every state reached, `kfree` of a live pointer keeps to its array and loses
nothing exactly if the free list holds fewer than 256 blocks. -/
theorem kfree_lossless_iff (mem : ℕ → BitVec 8) (s : Sys) (hs : Reached mem s) (l : ℕ × ℕ) (hl : l ∈ s.live) :
    Lossless s.heap l.1 ↔ (freeBlocks s.heap).length < 256 := by
  obtain ⟨_, used, free, hinv⟩ := reached_inv hs
  have heq := hinv.rep.freeBlocks_eq
  rw [heq]
  constructor
  · rintro ⟨h1, _⟩
    rw [hinv.rep.kfreeStores_eq] at h1
    omega
  · intro hlen
    obtain ⟨k, hk⟩ := List.getElem?_of_mem hl
    obtain ⟨b, _, hlb, hr⟩ := hinv.block_front hk
    obtain ⟨h', hkf, hf⟩ := kfree_freed hr hlen
    refine ⟨by rw [hinv.rep.kfreeStores_eq]; omega, h', hlb ▸ hkf, ?_, fun x hx => ?_⟩
    · rw [hf.total, heq, hlb, Nat.add_sub_cancel, (hr.hdr b (by simp)).2]
    · -- what is free is what the live blocks leave, and one of them is gone
      rw [heq, hr.tiling.covers_right] at hx
      rw [hf.rep.tiling.covers_right, hf.brk]
      exact ⟨hx.1, fun hc => hx.2 (covers_cons.2 (Or.inr hc))⟩

/-! ## A fragmented heap -/

/-- the `i`-th of the blocks of 32 bytes at the start of the heap -/
def blk (i : ℕ) : ℕ × ℕ := (heapVaBase + 32 * i, 32)

/-- the first `m` of them, last one first -/
def down : ℕ → List (ℕ × ℕ)
  | 0 => []
  | m + 1 => blk m :: down m

theorem mem_down {i m : ℕ} (h : i < m) : blk i ∈ down m := by
  induction m with
  | zero => omega
  | succ m ih =>
    rcases Nat.lt_succ_iff_lt_or_eq.1 h with h | rfl
    · exact mem_cons_of_mem _ (ih h)
    · exact mem_cons_self

section Fragmented

variable {mem : ℕ → BitVec 8} {s : Sys}

/-- an allocation from a list of one large block takes the front of it -/
theorem step_malloc_front {b sz n : ℕ} (hinv : RunInv s used [(b, sz)]) (h0 : n ≠ 0) (hn : n + hdrSize ≤ heapMax)
    (hsz : n + hdrSize + 32 ≤ sz) : ∃ s', step s (.malloc n) = .ok s' ∧ s'.heap.heapBrk = s.heap.heapBrk ∧
      RunInv s' ((b, n + hdrSize) :: used) [(b + (n + hdrSize), sz - (n + hdrSize))] := by
  rcases kmallocRounds_succ 1 hinv.rep h0 hn with ⟨pre, b', sz', post, h', he, _, _, hk, hbrk, hr⟩ | ⟨_, hnone⟩
  · obtain ⟨rfl, rfl, rfl, rfl⟩ : pre = [] ∧ b = b' ∧ sz = sz' ∧ post = [] := by
      cases pre <;> simp_all
    have hs : hdrSize + 16 ≤ sz - (n + hdrSize) := by
      unfold hdrSize at *
      omega
    rw [takenSize, takenRest, if_pos hs, if_pos hs] at hr
    refine ⟨⟨h', (b + hdrSize, n) :: s.live⟩, ?_, hbrk, hr, hinv.live.cons ⟨rfl, le_rfl⟩⟩
    rw [step, kmalloc, hk]
    rfl
  · have := hnone _ mem_cons_self
    simp only at this
    omega

/-- `m` allocations of 16 bytes -/
theorem reached_down (mem : ℕ → BitVec 8) {m : ℕ} (hm : m ≤ 1024) : ∃ s, Reached mem s ∧
    RunInv s (down m) [(heapVaBase + 32 * m, superPages * pageSize - 32 * m)] := by
  induction m with
  | zero => exact ⟨_, Reached.init, heapInit_rep mem, List.Forall₂.nil⟩
  | succ m ih =>
    obtain ⟨s, hs, hinv⟩ := ih (by omega)
    have hsz : 16 + hdrSize + 32 ≤ superPages * pageSize - 32 * m := by
      simp only [hdrSize, superPages, pageSize]
      omega
    obtain ⟨s', hstep, hbrk, hinv'⟩ := step_malloc_front hinv (by decide : 16 ≠ 0) (by decide) hsz
    refine ⟨s', hs.step (.malloc 16) (by decide : 16 + hdrSize < 2 ^ 64) hstep (hbrk ▸ (reached_inv hs).1), ?_⟩
    have e1 : heapVaBase + 32 * m + (16 + hdrSize) = heapVaBase + 32 * (m + 1) := by
      unfold hdrSize
      omega
    have e2 : superPages * pageSize - 32 * m - (16 + hdrSize) = superPages * pageSize - 32 * (m + 1) := by
      unfold hdrSize
      omega
    rwa [e1, e2] at hinv'

/-- a block freed between two live blocks touches no free block -/
theorem untouching_between {b c d : ℕ × ℕ} (hr : Rep h used free) (hb : b ∈ used) (hc : c ∈ used) (hd : d ∈ used)
    (hcb : c.1 + c.2 = b.1) (hbd : b.1 + b.2 = d.1) (hu : Untouching free) : Untouching (b :: free) := by
  have hpos : ∀ x ∈ used ++ free, 0 < x.2 := hr.tiling.pos
  have hb0 := hpos b (by simp [hb])
  have hout : ∀ x ∈ free, x.1 + x.2 ≠ b.1 ∧ b.1 + b.2 ≠ x.1 := fun x hx => by
    have h1 := (pairwise_append.1 hr.tiling.apart).2.2 c hc x hx
    have h2 := (pairwise_append.1 hr.tiling.apart).2.2 d hd x hx
    have h3 := hpos x (by simp [hx])
    have h4 := hpos c (by simp [hc])
    have h5 := hpos d (by simp [hd])
    unfold Apart at h1 h2
    omega
  intro x hx y hy
  rcases mem_cons.1 hx with rfl | hx' <;> rcases mem_cons.1 hy with rfl | hy'
  · omega
  · exact (hout y hy').2
  · exact (hout x hx').1
  · exact hu x hx' y hy'

/-- the `k`-th live block freed between two live blocks: one block more on the list -/
theorem step_free_between {k : ℕ} {b c d : ℕ × ℕ} (hinv : RunInv s used free) (hk : used[k]? = some b) (hc : c ∈ used)
    (hd : d ∈ used) (hcb : c.1 + c.2 = b.1) (hbd : b.1 + b.2 = d.1) (hu : Untouching free) (hlen : free.length < 256) :
    ∃ s' free', step s (.free k) = .ok s' ∧ s'.heap.heapBrk = s.heap.heapBrk ∧ RunInv s' (used.eraseIdx k) free' ∧
      Untouching free' ∧ free'.length = free.length + 1 := by
  have hlt : k < s.live.length := hinv.live.length_eq ▸ (List.getElem?_eq_some_iff.1 hk).1
  obtain ⟨b', hb', hlb, hr⟩ := hinv.block_front (List.getElem?_eq_getElem hlt)
  obtain rfl : b = b' := Option.some.inj (hk.symm.trans hb')
  obtain ⟨h', hkf, hf⟩ := kfree_freed hr hlen
  refine ⟨⟨h', s.live.eraseIdx k⟩, freeBlocks h', ?_, hf.brk, ⟨hf.rep, forall₂_eraseIdx hinv.live k⟩,
    untouching_of_spaced hf.spaced fun x hx => hf.rep.tiling.pos x (mem_append_right _ hx), hf.count
      (untouching_between hinv.rep (mem_of_getElem? hk) hc hd hcb hbd hu)⟩
  simp only [step, List.getElem?_eq_getElem hlt, hlb, hkf]
  rfl

/-- every second block freed, from the last one down -/
theorem reached_holes {j : ℕ} {A : List (ℕ × ℕ)} (n : ℕ) (hs : Reached mem s)
    (hinv : RunInv s (A ++ down (2 * j + 1)) free)
    (hu : Untouching free) (hn : n ≤ j) (hlen : free.length + n ≤ 256) : ∃ s' A' free', Reached mem s' ∧
      RunInv s' (A' ++ down (2 * (j - n) + 1)) free' ∧ free'.length = free.length + n := by
  induction n generalizing s A free j with
  | zero => exact ⟨s, A, free, hs, hinv, rfl⟩
  | succ n ih =>
    obtain ⟨j, rfl⟩ : ∃ i, j = i + 1 := ⟨j - 1, by omega⟩
    have hdown : A ++ down (2 * (j + 1) + 1) = (A ++ [blk (2 * j + 2)]) ++ blk (2 * j + 1) :: down (2 * j + 1) := by
      rw [append_assoc]
      rfl
    rw [hdown] at hinv
    have hk : ((A ++ [blk (2 * j + 2)]) ++ blk (2 * j + 1) :: down (2 * j + 1))[A.length + 1]? =
        some (blk (2 * j + 1)) := by
      rw [getElem?_append_right (by simp)]
      simp
    have hleg : Legal s (.free (A.length + 1)) := by
      simp only [Legal, collect_eq 256 hinv.rep.chain, length_take, length_map]
      omega
    obtain ⟨s', free', hstep, hbrk, hinv', hu', hlen'⟩ :=
      step_free_between (c := blk (2 * j)) (d := blk (2 * j + 2)) hinv hk
      (by simp [mem_down]) (by simp) (by simp only [blk]; omega) (by simp only [blk]; omega) hu (by omega)
    have herase : ((A ++ [blk (2 * j + 2)]) ++ blk (2 * j + 1) :: down (2 * j + 1)).eraseIdx (A.length + 1) =
        (A ++ [blk (2 * j + 2)]) ++ down (2 * j + 1) := by
      rw [eraseIdx_append_of_length_le (by simp)]
      simp
    rw [herase] at hinv'
    obtain ⟨s'', A'', free'', hs'', hinv'', hlen''⟩ :=
      ih (hs.step _ hleg hstep (hbrk ▸ (reached_inv hs).1)) hinv' hu' (by omega) (by omega)
    refine ⟨s'', A'', free'', hs'', ?_, by omega⟩
    rwa [show j + 1 - (n + 1) = j - n by omega]

end Fragmented

/-- 513 allocations of 16 bytes, and every second block freed but one: the next `kfree` of a live pointer stores 257
pointers in an array of 256 -/
theorem kfree_overflows : ∃ s l, Reached (fun _ => 0) s ∧ l ∈ s.live ∧ kfreeStores s.heap = 257 ∧
    kfree s.heap l.1 = .error .wild := by
  obtain ⟨s, hs, hinv⟩ := reached_down (fun _ => 0) (show 513 ≤ 1024 by decide)
  have hu : Untouching [(heapVaBase + 32 * 513, superPages * pageSize - 32 * 513)] := by
    simp only [Untouching, List.mem_singleton, forall_eq]
    decide
  obtain ⟨s', A, free', hs', hinv', hlen⟩ := reached_holes (j := 256) (A := []) 255 hs hinv hu (by decide) (by decide)
  rw [List.length_singleton] at hlen
  have hlive : s'.live ≠ [] := fun hnil => by
    have := hinv'.live.length_eq
    rw [hnil, List.length_append] at this
    exact absurd this (by simp [down])
  obtain ⟨l, hl⟩ := List.exists_mem_of_ne_nil _ hlive
  exact ⟨s', l, hs', hl, by rw [hinv'.rep.kfreeStores_eq]; omega, hinv'.kfree_wild hl (by omega)⟩

theorem kfree_lossless_one : ∃ s l, Reached (fun _ => 0) s ∧ l ∈ s.live ∧ Lossless s.heap l.1 := by
  obtain ⟨s, hs, hinv⟩ := reached_down (fun _ => 0) (show 1 ≤ 1024 by decide)
  have hlive : s.live ≠ [] := fun hnil => by
    have := hinv.live.length_eq
    rw [hnil] at this
    exact absurd this (by simp [down])
  obtain ⟨l, hl⟩ := List.exists_mem_of_ne_nil _ hlive
  exact ⟨s, l, hs, hl, (kfree_lossless_iff _ s hs l hl).2 (by rw [hinv.rep.freeBlocks_eq]; decide)⟩

/-- three blocks allocated, and two of them freed in both orders -/
theorem kfree_order_free_two : ∃ h h1 h2, kfreeAll h (ptrs [blk 0, blk 1]) = .ok h1 ∧
    kfreeAll h (ptrs [blk 1, blk 0]) = .ok h2 ∧ freeBlocks h1 = freeBlocks h2 := by
  obtain ⟨s, hs, hinv⟩ := reached_down (fun _ => 0) (show 3 ≤ 1024 by decide)
  have hperm : (down 3).Perm ([blk 0, blk 1] ++ [blk 2]) := by decide
  have hswap : [blk 0, blk 1].Perm [blk 1, blk 0] := by decide
  obtain ⟨h1, h2, hk1, hk2, he, _⟩ := kfree_order_free s.heap _ _ _ _ _ hinv.rep hperm (by simp) hswap
    (roomy_of_few (hinv.rep.perm_used hperm) (by decide))
    (roomy_of_few (hinv.rep.perm_used (hperm.trans (hswap.append_right _))) (by decide))
  exact ⟨s.heap, h1, h2, hk1, hk2, he⟩

end Uix.Heap
