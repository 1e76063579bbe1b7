/-
What the physical memory manager does, in terms of sets of pages. The free set `freeSet p` is the set of pages below
`bitmapLen` whose bit is set; `Ok p` is the allocator's own invariant.

- `pmmAlloc_spec`: takes one free page, or returns 0 exactly when none is free.
- `pmmAllocPages_spec`: takes the lowest run of `n` free pages, or returns 0 exactly when there is none.
- `pmm_alloc_pages_first_fit`: the same over every bitmap, bit by bit.
- `pmmFree_spec`: gives a used page back.
- `pmmRef_spec`, `pmmUnref_spec`: the reference counts.
- `skip`, `nth`: the pages in the order in which they are handed out.
-/
import Uix.Memory.Pmm

namespace Uix.Pmm

open Machine List Function

variable {p p' q : Pmm} {i n : ℕ} {S : Finset ℕ} {page : PAddr}

/-! ## Bits of the bitmap -/

/-- bit of page `i` -/
def bit (p : Pmm) (i : ℕ) : Bool := (p.bitmap (bmWord i)).getLsbD (i % 64)

/-- the free pages -/
def freeSet (p : Pmm) : Finset ℕ := (Finset.range p.bitmapLen).filter fun i => p.bit i

theorem mem_freeSet : i ∈ p.freeSet ↔ i < p.bitmapLen ∧ p.bit i = true := by
  simp [freeSet]

theorem lt_of_free (h : i ∈ p.freeSet) (hlen : p.bitmapLen ≤ n) : i < n :=
  lt_of_lt_of_le (mem_freeSet.1 h).1 hlen

/-- page `i`'s word lies in the reserved pages -/
def InWords (p : Pmm) (i : ℕ) : Prop := bmWord i < 512 * p.bmPages

theorem getLsbD_bmBit (i k : ℕ) : (bmBit i).getLsbD k = decide (k = i % 64) := by
  have hi : i % 64 < 64 := Nat.mod_lt _ (by decide)
  simp only [bmBit, BitVec.getLsbD_shiftLeft, BitVec.getLsbD_one]
  by_cases h : k = i % 64
  · simp [h, hi]
  · by_cases hk : k < i % 64
    · simp [hk, h]
    · have : ¬ (k - i % 64 = 0) := by omega
      simp [this, h]

theorem and_bmBit_ne_zero (w : U64) (i : ℕ) : decide (w &&& bmBit i ≠ 0) = w.getLsbD (i % 64) := by
  cases hw : w.getLsbD (i % 64) with
  | false =>
    have : w &&& bmBit i = 0 := by
      apply BitVec.eq_of_getLsbD_eq
      intro k _
      simp only [BitVec.getLsbD_and, getLsbD_bmBit]
      by_cases h : k = i % 64
      · simp [h, hw]
      · simp [h]
    simp [this]
  | true =>
    have : w &&& bmBit i ≠ 0 := by
      intro h0
      have := congrArg (fun v => BitVec.getLsbD v (i % 64)) h0
      simp [BitVec.getLsbD_and, getLsbD_bmBit, hw] at this
    exact decide_eq_true this

theorem isFree_eq (h : p.InWords i) : p.isFree i = .ok (p.bit i) := by
  have hw : p.word i = .ok (p.bitmap (bmWord i)) := if_pos h
  simp only [isFree, hw, bind, Except.bind, pure, Except.pure, bit, and_bmBit_ne_zero]

theorem setFree_eq (h : p.InWords i) :
    p.setFree i = .ok (p.setWord i (p.bitmap (bmWord i) ||| bmBit i)) := by
  have hw : p.word i = .ok (p.bitmap (bmWord i)) := if_pos h
  simp only [setFree, hw, bind, Except.bind, pure, Except.pure]

theorem setUsed_eq (h : p.InWords i) :
    p.setUsed i = .ok (p.setWord i (p.bitmap (bmWord i) &&& ~~~ bmBit i)) := by
  have hw : p.word i = .ok (p.bitmap (bmWord i)) := if_pos h
  simp only [setUsed, hw, bind, Except.bind, pure, Except.pure]

/-- a page is its word and its bit in the word -/
theorem eq_of_word_bit {j : ℕ} (hw : bmWord j = bmWord i) (hb : j % 64 = i % 64) : j = i := by
  unfold bmWord at hw; omega

theorem bit_setWord_or (p : Pmm) (i j : ℕ) :
    (p.setWord i (p.bitmap (bmWord i) ||| bmBit i)).bit j = (decide (j = i) || p.bit j) := by
  by_cases hw : bmWord j = bmWord i
  · simp only [bit, setWord, hw, update_self, BitVec.getLsbD_or, getLsbD_bmBit]
    by_cases hb : j % 64 = i % 64
    · simp [eq_of_word_bit hw hb]
    · have : j ≠ i := fun h => hb (by rw [h])
      simp [hb, this]
  · have : j ≠ i := fun h => hw (by rw [h])
    simp [bit, setWord, update_of_ne hw, this]

theorem bit_setWord_and (p : Pmm) (i j : ℕ) :
    (p.setWord i (p.bitmap (bmWord i) &&& ~~~ bmBit i)).bit j = (decide (j ≠ i) && p.bit j) := by
  have hj : j % 64 < 64 := Nat.mod_lt _ (by decide)
  by_cases hw : bmWord j = bmWord i
  · simp only [bit, setWord, hw, update_self, BitVec.getLsbD_and, BitVec.getLsbD_not, getLsbD_bmBit, hj]
    by_cases hb : j % 64 = i % 64
    · simp [eq_of_word_bit hw hb]
    · have : j ≠ i := fun h => hb (by rw [h])
      simp [hb, this]
  · have : j ≠ i := fun h => hw (by rw [h])
    simp [bit, setWord, update_of_ne hw, this]

/-! ## The allocator's invariant -/

structure Ok (p : Pmm) : Prop where
  /-- the words of all pages lie in the reserved pages -/
  words : p.bitmapLen ≤ 64 * (512 * p.bmPages)
  total : p.totalPages = p.bitmapLen
  /-- addresses of pages fit in 64 bits -/
  small : p.bitmapLen ≤ 2 ^ 52
  scan : p.nextFreeScan < p.bitmapLen
  count : p.freeCount = p.freeSet.card
  /-- page 0 is never free, so the address 0 can mean failure -/
  zero : 0 ∉ p.freeSet

theorem inWords_of_lt (hw : p.bitmapLen ≤ 64 * (512 * p.bmPages)) (hi : i < p.bitmapLen) :
    p.InWords i := by
  unfold InWords bmWord; omega

theorem pageIdx_pageAddr (h : i < 2 ^ 52) : pageIdx (pageAddr i) = i := by
  have h1 : i < 2 ^ 64 := lt_trans h (by decide)
  have h2 : i * 2 ^ 12 < 2 ^ 64 := by
    calc i * 2 ^ 12 < 2 ^ 52 * 2 ^ 12 := by omega
      _ = 2 ^ 64 := by norm_num
  simp only [pageIdx, pageAddr, BitVec.toNat_ushiftRight, BitVec.toNat_shiftLeft, BitVec.toNat_ofNat,
    Nat.mod_eq_of_lt h1, Nat.shiftLeft_eq, Nat.mod_eq_of_lt h2, Nat.shiftRight_eq_div_pow]
  exact Nat.mul_div_cancel _ (by decide)

theorem pageAddr_eq (i : ℕ) : pageAddr i = BitVec.ofNat 64 (i * pageSize) := by
  apply BitVec.eq_of_toNat_eq
  rw [pageAddr, BitVec.toNat_shiftLeft, BitVec.toNat_ofNat, BitVec.toNat_ofNat, Nat.shiftLeft_eq, pageSize]
  omega

theorem pageAddr_add (f i : ℕ) : pageAddr f + BitVec.ofNat 64 (i * pageSize) = pageAddr (f + i) := by
  rw [pageAddr_eq, pageAddr_eq, ← BitVec.ofNat_add, Nat.add_mul]

theorem toNat_pageAddr (h : i < 2 ^ 52) : (pageAddr i).toNat = i * pageSize := by
  rw [pageAddr_eq, BitVec.toNat_ofNat, Nat.mod_eq_of_lt]
  rw [pageSize]
  omega

theorem pageAddr_ne_zero (h : i < 2 ^ 52) (h0 : i ≠ 0) : pageAddr i ≠ 0 := by
  intro h'
  have := pageIdx_pageAddr h
  rw [h'] at this
  exact h0 (by simpa [pageIdx] using this.symm)

theorem pageIdx_of_free (h : p.Ok) (hi : i ∈ p.freeSet) :
    pageAddr i ≠ 0 ∧ pageIdx (pageAddr i) = i := by
  have hlt := lt_of_free hi h.small
  exact ⟨pageAddr_ne_zero hlt fun h0 => h.zero (h0 ▸ hi), pageIdx_pageAddr hlt⟩

/-- `p'` is `p` with the pages of `S` handed out -/
structure Takes (p : Pmm) (S : Finset ℕ) (p' : Pmm) : Prop where
  ok : p'.Ok
  sub : S ⊆ p.freeSet
  free : p'.freeSet = p.freeSet \ S
  len : p'.bitmapLen = p.bitmapLen
  phys : p'.bitmapPhys = p.bitmapPhys
  pages : p'.bmPages = p.bmPages
  refs : p'.refcounts = p.refcounts
  freed : p'.freed = p.freed

theorem Takes.refl (h : p.Ok) : Takes p ∅ p :=
  ⟨h, Finset.empty_subset _, (Finset.sdiff_empty).symm, rfl, rfl, rfl, rfl, rfl⟩

theorem Takes.trans {r : Pmm} {T : Finset ℕ} (h1 : Takes p S q) (h2 : Takes q T r) : Takes p (S ∪ T) r where
  ok := h2.ok
  sub := Finset.union_subset h1.sub fun i hi => by
    have := h2.sub hi
    rw [h1.free] at this
    exact (Finset.mem_sdiff.1 this).1
  free := by rw [h2.free, h1.free, sdiff_sdiff_left]; rfl
  len := h2.len.trans h1.len
  phys := h2.phys.trans h1.phys
  pages := h2.pages.trans h1.pages
  refs := h2.refs.trans h1.refs
  freed := h2.freed.trans h1.freed

/-! ## Marking runs of pages -/

/-- `set_used` over a list of pages clears exactly their bits -/
theorem foldlM_setUsed (l : List ℕ) (p : Pmm) (h : ∀ i ∈ l, p.InWords i) :
    ∃ b, l.foldlM setUsed p = .ok { p with bitmap := b } ∧
      ∀ j, ({ p with bitmap := b } : Pmm).bit j = (decide (j ∉ l) && p.bit j) := by
  induction l generalizing p with
  | nil => exact ⟨p.bitmap, rfl, fun j => by simp⟩
  | cons i l ih =>
    obtain ⟨b, hb, hbit⟩ := ih (p.setWord i (p.bitmap (bmWord i) &&& ~~~ bmBit i))
      (fun j hj => h j (mem_cons_of_mem i hj))
    refine ⟨b, foldlM_cons_ok.2 ⟨_, setUsed_eq (h i mem_cons_self), hb⟩, fun j => ?_⟩
    have := hbit j
    rw [bit_setWord_and] at this
    refine Eq.trans this ?_
    by_cases hj : j = i
    · simp [hj]
    · simp [hj]

/-- taking the pages of a list of distinct free pages, with the count lowered and the cursor moved -/
theorem takes_of_bits (h : p.Ok) {l : List ℕ} (hl : l.Nodup) (hf : ∀ i ∈ l, i ∈ p.freeSet) {b : ℕ → U64}
    (hb : ∀ j, ({ p with bitmap := b } : Pmm).bit j = (decide (j ∉ l) && p.bit j)) {c : ℕ} (hc : c < p.bitmapLen) :
    Takes p l.toFinset { p with bitmap := b, freeCount := p.freeCount - l.length, nextFreeScan := c } := by
  have hfree : ({ p with bitmap := b, freeCount := p.freeCount - l.length, nextFreeScan := c } : Pmm).freeSet =
      p.freeSet \ l.toFinset := by
    ext j
    have hbj : ({ p with bitmap := b, freeCount := p.freeCount - l.length, nextFreeScan := c } : Pmm).bit j =
      (decide (j ∉ l) && p.bit j) := hb j
    rw [mem_freeSet, hbj, Finset.mem_sdiff, mem_freeSet, mem_toFinset]
    simp only [Bool.and_eq_true, decide_eq_true_eq]
    tauto
  have hsub : l.toFinset ⊆ p.freeSet := fun i hi => hf i (mem_toFinset.1 hi)
  refine ⟨⟨h.words, h.total, h.small, hc, ?_, ?_⟩, hsub, hfree, rfl, rfl, rfl, rfl, rfl⟩
  · rw [hfree, Finset.card_sdiff_of_subset hsub, toFinset_card_of_nodup hl, ← h.count]
  · rw [hfree]
    exact fun h0 => h.zero (Finset.mem_sdiff.1 h0).1

/-! ## `pmm_alloc` -/

/-- the scan visits every page: page `i` is at some offset from the cursor -/
theorem exists_offset {c len : ℕ} (hc : c < len) (hi : i < len) : ∃ n < len, (c + n) % len = i := by
  by_cases h : c ≤ i
  · exact ⟨i - c, by omega, by rw [Nat.add_sub_cancel' h, Nat.mod_eq_of_lt hi]⟩
  · refine ⟨i + len - c, by omega, ?_⟩
    rw [show c + (i + len - c) = i + len by omega, Nat.add_mod_right, Nat.mod_eq_of_lt hi]

theorem pmmAllocLoop_spec (h : p.Ok) (k n : ℕ) (hk : n + k = p.bitmapLen)
    (hn : ∀ m < n, p.bit ((p.nextFreeScan + m) % p.bitmapLen) = false) :
    ∃ pa p', pmmAllocLoop p k n = .ok (pa, p') ∧
      ((pa = 0 ∧ p' = p ∧ p.freeSet = ∅) ∨ ∃ i ∈ p.freeSet, pa = pageAddr i ∧ Takes p {i} p') := by
  have hlen : 0 < p.bitmapLen := lt_of_le_of_lt (Nat.zero_le _) h.scan
  induction k generalizing n with
  | zero =>
    -- the scan is over: every page was met and none was free
    refine ⟨0, p, rfl, Or.inl ⟨rfl, rfl, ?_⟩⟩
    ext i
    simp only [mem_freeSet, Finset.notMem_empty, iff_false, not_and]
    intro hi hb
    obtain ⟨m, hm, he⟩ := exists_offset h.scan hi
    have := hn m (by omega)
    rw [he, hb] at this
    exact absurd this (by decide)
  | succ k ih =>
    set i := (p.nextFreeScan + n) % p.bitmapLen with hi
    have hlt : i < p.bitmapLen := Nat.mod_lt _ hlen
    have hw : p.InWords i := inWords_of_lt h.words hlt
    cases hb : p.bit i with
    | true =>
      have hmem : i ∈ p.freeSet := mem_freeSet.2 ⟨hlt, hb⟩
      have ht := takes_of_bits h (nodup_singleton i) (by simpa using hmem)
        (b := update p.bitmap (bmWord i) (p.bitmap (bmWord i) &&& ~~~ bmBit i))
        (fun j => (bit_setWord_and p i j).trans (by simp)) (Nat.mod_lt (i + 1) hlen)
      refine ⟨pageAddr i, _, ?_, Or.inr ⟨i, hmem, rfl, by simpa using ht⟩⟩
      simp only [pmmAllocLoop, ← hi, isFree_eq hw, hb, setUsed_eq hw, bind, Except.bind, pure, Except.pure, if_true]
      rfl
    | false =>
      have hstep : pmmAllocLoop p (k + 1) n = pmmAllocLoop p k (n + 1) := by
        simp only [pmmAllocLoop, ← hi, isFree_eq hw, hb, bind, Except.bind, Bool.false_eq_true, if_false]
      rw [hstep]
      refine ih (n + 1) (by omega) fun m hm => ?_
      rcases Nat.lt_succ_iff_lt_or_eq.1 hm with hm | rfl
      · exact hn m hm
      · exact hb

/-- **`pmm_alloc` takes one free page**, or returns 0 and changes nothing exactly when no page is free. -/
theorem pmmAlloc_spec (h : p.Ok) :
    ∃ pa p', p.pmmAlloc = .ok (pa, p') ∧
      ((pa = 0 ∧ p' = p ∧ p.freeSet = ∅) ∨ ∃ i ∈ p.freeSet, pa = pageAddr i ∧ Takes p {i} p') :=
  pmmAllocLoop_spec h p.bitmapLen 0 (by omega) (fun m hm => absurd hm (Nat.not_lt_zero m))

/-- how far the scan goes until it comes to page `i` -/
def distance (p : Pmm) (i : ℕ) : ℕ := (i + p.bitmapLen - p.nextFreeScan) % p.bitmapLen

theorem distance_offset (h : p.Ok) (hn : n < p.bitmapLen) :
    p.distance ((p.nextFreeScan + n) % p.bitmapLen) = n := by
  have hs := h.scan
  unfold distance
  by_cases hlt : p.nextFreeScan + n < p.bitmapLen
  · rw [Nat.mod_eq_of_lt hlt, show p.nextFreeScan + n + p.bitmapLen - p.nextFreeScan = n + p.bitmapLen by omega,
      Nat.add_mod_right, Nat.mod_eq_of_lt hn]
  · have hwrap : (p.nextFreeScan + n) % p.bitmapLen = p.nextFreeScan + n - p.bitmapLen := by
      rw [Nat.mod_eq_sub_mod (by omega), Nat.mod_eq_of_lt (by omega)]
    rw [hwrap, show p.nextFreeScan + n - p.bitmapLen + p.bitmapLen - p.nextFreeScan = n by omega, Nat.mod_eq_of_lt hn]

theorem pmmAllocLoop_first {pa : PAddr} (h : p.Ok) (k n : ℕ) (hk : n + k = p.bitmapLen)
    (hn : ∀ m < n, p.bit ((p.nextFreeScan + m) % p.bitmapLen) = false) (hrun : pmmAllocLoop p k n = .ok (pa, p'))
    (h0 : pa ≠ 0) : ∀ g ∈ p.freeSet, p.distance (pageIdx pa) ≤ p.distance g := by
  have hlen : 0 < p.bitmapLen := lt_of_le_of_lt (Nat.zero_le _) h.scan
  induction k generalizing n with
  | zero =>
    cases hrun
    exact absurd rfl h0
  | succ k ih =>
    have hlt : (p.nextFreeScan + n) % p.bitmapLen < p.bitmapLen := Nat.mod_lt _ hlen
    have hw : p.InWords ((p.nextFreeScan + n) % p.bitmapLen) := inWords_of_lt h.words hlt
    rw [pmmAllocLoop] at hrun
    cases hb : p.bit ((p.nextFreeScan + n) % p.bitmapLen) with
    | true =>
      simp only [isFree_eq hw, hb, setUsed_eq hw, ok_bind, if_true, pure_ok, Prod.mk.injEq] at hrun
      intro g hg
      rw [← hrun.1, pageIdx_pageAddr (lt_of_lt_of_le hlt h.small), distance_offset h (by omega)]
      obtain ⟨hglt, hgb⟩ := mem_freeSet.1 hg
      obtain ⟨m, hm, hgm⟩ := exists_offset h.scan hglt
      rw [← hgm, distance_offset h hm]
      by_contra hmn
      rw [← hgm, hn m (by omega)] at hgb
      exact absurd hgb (by decide)
    | false =>
      simp only [isFree_eq hw, hb, ok_bind, Bool.false_eq_true, if_false] at hrun
      refine ih (n + 1) (by omega) (fun m hm => ?_) hrun
      rcases Nat.lt_succ_iff_lt_or_eq.1 hm with hm | rfl
      · exact hn m hm
      · exact hb

/-- **The page taken is the first free one** that the scan comes to. -/
theorem pmmAlloc_first {pa : PAddr} (h : p.Ok) (hrun : p.pmmAlloc = .ok (pa, p')) (h0 : pa ≠ 0) :
    ∀ g ∈ p.freeSet, p.distance (pageIdx pa) ≤ p.distance g :=
  pmmAllocLoop_first h p.bitmapLen 0 (by omega) (fun m hm => absurd hm (Nat.not_lt_zero m)) hrun h0

/-- pages at the same distance are one page -/
theorem eq_of_distance (h : p.Ok) {j : ℕ} (hi : i < p.bitmapLen) (hj : j < p.bitmapLen)
    (hd : p.distance i = p.distance j) : i = j := by
  obtain ⟨n, hn, rfl⟩ := exists_offset h.scan hi
  obtain ⟨m, hm, rfl⟩ := exists_offset h.scan hj
  rw [distance_offset h hn, distance_offset h hm] at hd
  rw [hd]

/-! ## `pmm_alloc_pages` -/

/-- pages `f .. f + n - 1` are all free -/
def FreeRun (p : Pmm) (f n : ℕ) : Prop := ∀ j, f ≤ j → j < f + n → j ∈ p.freeSet

/-- the scan at page `i` after a maximal run of `run < n` free pages, with no run of `n` pages below `i` -/
structure Scanning (p : Pmm) (n i run : ℕ) : Prop where
  le : run ≤ i
  lt : run < n
  free : ∀ j, i - run ≤ j → j < i → j ∈ p.freeSet
  edge : run = i ∨ i - run - 1 ∉ p.freeSet
  none : ∀ f, f + n ≤ i → ¬ p.FreeRun f n

theorem Scanning.used {run : ℕ} (h : Scanning p n i run) (hi : i ∉ p.freeSet) :
    Scanning p n (i + 1) 0 := by
  refine ⟨Nat.zero_le _, lt_of_le_of_lt (Nat.zero_le _) h.lt, fun j h1 h2 => by omega, Or.inr (by simpa using hi),
    fun f hf hr => ?_⟩
  by_cases hfi : f + n ≤ i
  · exact h.none f hfi hr
  · exact hi (hr i (by have := h.lt; omega) (by omega))

theorem Scanning.next {run : ℕ} (h : Scanning p n i run) (hi : i ∈ p.freeSet) (hn : run + 1 ≠ n) :
    Scanning p n (i + 1) (run + 1) := by
  have hlt := h.lt
  have hle := h.le
  refine ⟨by omega, by omega, fun j h1 h2 => ?_, ?_, fun f hf hr => ?_⟩
  · rcases Nat.lt_succ_iff_lt_or_eq.1 h2 with hj | rfl
    · exact h.free j (by omega) hj
    · exact hi
  · rcases h.edge with he | he
    · exact Or.inl (by omega)
    · right; rwa [show i + 1 - (run + 1) - 1 = i - run - 1 by omega]
  · by_cases hfi : f + n ≤ i
    · exact h.none f hfi hr
    · -- a run ending at `i` would reach below the maximal run
      rcases h.edge with he | he
      · omega
      · exact he (hr _ (by omega) (by omega))

/-- the run taken is the lowest one -/
structure TakesRun (p : Pmm) (f n : ℕ) (p' : Pmm) : Prop where
  takes : Takes p (List.range' f n).toFinset p'
  run : p.FreeRun f n
  first : ∀ g < f, ¬ p.FreeRun g n

/-- **The scan**, over any bitmap that lies in the reserved pages. -/
theorem pmmAllocPagesLoop_fit (hwords : p.bitmapLen ≤ 64 * (512 * p.bmPages)) (n k i run : ℕ)
    (hk : i + k = p.bitmapLen) (hs : Scanning p n i run) :
    (pmmAllocPagesLoop p n k i run = .ok (0, p) ∧ ∀ f, ¬ p.FreeRun f n) ∨
    ∃ f b, pmmAllocPagesLoop p n k i run = .ok (pageAddr f, { p with
        bitmap := b, freeCount := p.freeCount - n, nextFreeScan := (f + n) % p.bitmapLen }) ∧
      p.FreeRun f n ∧ (∀ g < f, ¬ p.FreeRun g n) ∧
      ∀ j, ({ p with bitmap := b } : Pmm).bit j = (decide (j ∉ range' f n) && p.bit j) := by
  induction k generalizing i run with
  | zero =>
    refine .inl ⟨rfl, fun f hr => hs.none f ?_ hr⟩
    have hlt := hs.lt
    have := (mem_freeSet.1 (hr (f + n - 1) (by omega) (by omega))).1
    omega
  | succ k ih =>
    have hlt : i < p.bitmapLen := by omega
    have hw : p.InWords i := inWords_of_lt hwords hlt
    cases hb : p.bit i with
    | false =>
      have hi : i ∉ p.freeSet := fun hm => by simp [mem_freeSet, hb] at hm
      have hstep : pmmAllocPagesLoop p n (k + 1) i run = pmmAllocPagesLoop p n k (i + 1) 0 := by
        simp only [pmmAllocPagesLoop, isFree_eq hw, hb, bind, Except.bind, Bool.false_eq_true, if_false]
      rw [hstep]
      exact ih (i + 1) 0 (by omega) (hs.used hi)
    | true =>
      have hi : i ∈ p.freeSet := mem_freeSet.2 ⟨hlt, hb⟩
      by_cases hn : run + 1 = n
      · have hle := hs.le
        have hrun : p.FreeRun (i + 1 - n) n := fun j h1 h2 => by
          by_cases hji : j = i
          · rw [hji]; exact hi
          · exact hs.free j (by omega) (by omega)
        obtain ⟨b, hset, hbit⟩ := foldlM_setUsed (range' (i + 1 - n) n) p fun j hj => by
          rw [mem_range'_1] at hj
          exact inWords_of_lt hwords (mem_freeSet.1 (hrun j hj.1 hj.2)).1
        refine .inr ⟨i + 1 - n, b, ?_, hrun, fun g hg hr => hs.none g (by omega) hr, hbit⟩
        rw [Nat.sub_add_cancel (by omega)]
        simp only [pmmAllocPagesLoop, isFree_eq hw, hb, bind, Except.bind, pure, Except.pure, if_true, hn, hset]
      · have hstep : pmmAllocPagesLoop p n (k + 1) i run = pmmAllocPagesLoop p n k (i + 1) (run + 1) := by
          simp only [pmmAllocPagesLoop, isFree_eq hw, hb, bind, Except.bind, if_true, hn, if_false]
        rw [hstep]
        exact ih (i + 1) (run + 1) (by omega) (hs.next hi hn)

theorem Scanning.start (p : Pmm) (hn : 0 < n) : Scanning p n 0 0 :=
  ⟨le_rfl, hn, fun j _ hj => absurd hj (Nat.not_lt_zero j), Or.inl rfl, fun f hf => by omega⟩

/-- without a page to look for the scan finds nothing -/
theorem pmmAllocPagesLoop_zero (h : p.Ok) (k i run : ℕ) (hk : i + k = p.bitmapLen) :
    pmmAllocPagesLoop p 0 k i run = .ok (0, p) := by
  induction k generalizing i run with
  | zero => rfl
  | succ k ih =>
    have hw : p.InWords i := inWords_of_lt h.words (by omega)
    simp only [pmmAllocPagesLoop, isFree_eq hw, bind, Except.bind]
    cases p.bit i with
    | false => exact ih (i + 1) 0 (by omega)
    | true => simpa using ih (i + 1) (run + 1) (by omega)

/-- **`pmm_alloc_pages(n)` is first fit**: it takes the lowest run of `n` free pages, or returns 0 and changes nothing
exactly when there is none. -/
theorem pmmAllocPages_spec (h : p.Ok) (hn : 0 < n) :
    ∃ pa p', p.pmmAllocPages n = .ok (pa, p') ∧
      ((pa = 0 ∧ p' = p ∧ ∀ f, ¬ p.FreeRun f n) ∨ ∃ f, pa = pageAddr f ∧ TakesRun p f n p') := by
  have hlen : 0 < p.bitmapLen := lt_of_le_of_lt (Nat.zero_le _) h.scan
  rcases pmmAllocPagesLoop_fit h.words n p.bitmapLen 0 0 (by omega) (.start p hn) with
    ⟨hrun, hnone⟩ | ⟨f, b, hrun, hfree, hfirst, hbit⟩
  · exact ⟨0, p, hrun, .inl ⟨rfl, rfl, hnone⟩⟩
  · have hin : ∀ j ∈ range' f n, j ∈ p.freeSet := fun j hj => by
      rw [mem_range'_1] at hj
      exact hfree j hj.1 hj.2
    have ht := takes_of_bits h nodup_range' hin hbit (Nat.mod_lt (f + n) hlen)
    rw [length_range'] at ht
    exact ⟨_, _, hrun, .inr ⟨f, rfl, ht, hfree, hfirst⟩⟩

theorem pmmAllocPages_zero (h : p.Ok) : p.pmmAllocPages 0 = .ok (0, p) :=
  pmmAllocPagesLoop_zero h p.bitmapLen 0 0 (by omega)

/-! ## `pmm_free` -/

/-- `p'` is `p` with the used page `i` given back -/
structure Gives (p : Pmm) (i : ℕ) (p' : Pmm) : Prop where
  ok : i ≠ 0 → p'.Ok
  free : p'.freeSet = insert i p.freeSet
  len : p'.bitmapLen = p.bitmapLen
  phys : p'.bitmapPhys = p.bitmapPhys
  pages : p'.bmPages = p.bmPages
  refs : p'.refcounts = p.refcounts
  freed : p'.freed = i :: p.freed

/-- **`pmm_free` gives a used page back.** -/
theorem pmmFree_spec (h : p.Ok) (page : PAddr) (hlt : pageIdx page < p.bitmapLen)
    (hused : pageIdx page ∉ p.freeSet) : ∃ p', p.pmmFree page = .ok p' ∧ Gives p (pageIdx page) p' := by
  set i := pageIdx page with hi
  have hw : p.InWords i := inWords_of_lt h.words hlt
  have hb : p.bit i = false := by
    cases hb : p.bit i with
    | false => rfl
    | true => exact absurd (mem_freeSet.2 ⟨hlt, hb⟩) hused
  set b := update p.bitmap (bmWord i) (p.bitmap (bmWord i) ||| bmBit i) with hbm
  set p' : Pmm := { p with bitmap := b, freeCount := p.freeCount + 1, freed := i :: p.freed }
  have hrun : p.pmmFree page = .ok p' := by
    simp only [pmmFree, ← hi, Nat.not_le.2 hlt, if_false, isFree_eq hw, hb, setFree_eq hw, bind, Except.bind, pure,
      Except.pure, Bool.false_eq_true]
    rfl
  have hfree : p'.freeSet = insert i p.freeSet := by
    ext j
    have hbj : p'.bit j = (decide (j = i) || p.bit j) := bit_setWord_or p i j
    rw [mem_freeSet, hbj, Finset.mem_insert, mem_freeSet]
    simp only [Bool.or_eq_true, decide_eq_true_eq]
    constructor
    · rintro ⟨h1, h2 | h2⟩
      · exact Or.inl h2
      · exact Or.inr ⟨h1, h2⟩
    · rintro (rfl | h2)
      · exact ⟨hlt, Or.inl rfl⟩
      · exact ⟨h2.1, Or.inr h2.2⟩
  refine ⟨p', hrun, fun h0 => ⟨h.words, h.total, h.small, h.scan, ?_, ?_⟩, hfree, rfl, rfl, rfl, rfl, rfl⟩
  · rw [hfree, Finset.card_insert_of_notMem hused, ← h.count]
  · rw [hfree, Finset.mem_insert, not_or]
    exact ⟨fun e => h0 e.symm, h.zero⟩

/-! ## Reference counts -/

/-- the reference counts, all 0 before their array exists -/
def counts (p : Pmm) : ℕ → ℕ := p.refcounts.getD fun _ => 0

/-- one reference more to page `i`, up to 0xFFFF -/
def bump (r : ℕ → ℕ) (i : ℕ) : ℕ → ℕ := if r i < 0xFFFF then Function.update r i (r i + 1) else r

theorem le_bump (r : ℕ → ℕ) (i f : ℕ) : r f ≤ bump r i f := by
  unfold bump
  split_ifs
  · by_cases h : f = i
    · subst h; simp
    · simp [h]
  · exact le_rfl

theorem one_le_bump (r : ℕ → ℕ) (i : ℕ) : 1 ≤ bump r i i := by
  unfold bump
  split_ifs
  · simp
  · omega

theorem le_foldl_bump (L : List ℕ) (r : ℕ → ℕ) (f : ℕ) : r f ≤ L.foldl bump r f := by
  induction L generalizing r with
  | nil => exact le_rfl
  | cons i L ih => exact (le_bump r i f).trans (ih _)

/-- every page of the list has a reference afterwards -/
theorem one_le_foldl_bump {L : List ℕ} (r : ℕ → ℕ) {f : ℕ} (h : f ∈ L) : 1 ≤ L.foldl bump r f := by
  induction L generalizing r with
  | nil => exact absurd h not_mem_nil
  | cons i L ih =>
    rcases mem_cons.1 h with rfl | h
    · exact (one_le_bump r f).trans (le_foldl_bump L _ f)
    · exact ih _ h

theorem bump_le (r : ℕ → ℕ) (i f : ℕ) : bump r i f ≤ r f + if f = i then 1 else 0 := by
  unfold bump
  split_ifs with h1 h2 h2
  · rw [h2, update_self]
  · rw [update_of_ne h2, Nat.add_zero]
  · exact Nat.le_succ _
  · exact le_rfl

/-- a page that is not in the list twice has one reference more at most -/
theorem foldl_bump_le {L : List ℕ} (hn : L.Nodup) (r : ℕ → ℕ) (f : ℕ) :
    L.foldl bump r f ≤ r f + if f ∈ L then 1 else 0 := by
  induction L generalizing r with
  | nil => exact le_rfl
  | cons i L ih =>
    obtain ⟨hi, hn⟩ := nodup_cons.1 hn
    have h1 := ih hn (bump r i)
    have h2 := bump_le r i f
    rw [foldl_cons]
    by_cases hfi : f = i
    · subst hfi
      rw [if_neg hi] at h1
      rw [if_pos rfl] at h2
      rw [if_pos mem_cons_self]
      omega
    · rw [if_neg hfi] at h2
      simp only [mem_cons, hfi, false_or]
      omega

/-- `p'` is `p` with the pages of `S` handed out and any reference counts -/
structure Draws (p : Pmm) (S : Finset ℕ) (p' : Pmm) : Prop where
  ok : p'.Ok
  sub : S ⊆ p.freeSet
  free : p'.freeSet = p.freeSet \ S
  len : p'.bitmapLen = p.bitmapLen
  freed : p'.freed = p.freed

theorem Takes.draws (h : Takes p S p') : Draws p S p' := ⟨h.ok, h.sub, h.free, h.len, h.freed⟩

theorem Draws.refl (h : p.Ok) : Draws p ∅ p := (Takes.refl h).draws

theorem Draws.trans {r : Pmm} {T : Finset ℕ} (h1 : Draws p S q) (h2 : Draws q T r) : Draws p (S ∪ T) r where
  ok := h2.ok
  sub := Finset.union_subset h1.sub fun i hi => by
    have := h2.sub hi
    rw [h1.free] at this
    exact (Finset.mem_sdiff.1 this).1
  free := by rw [h2.free, h1.free, sdiff_sdiff_left]; rfl
  len := h2.len.trans h1.len
  freed := h2.freed.trans h1.freed

/-- pages in use are not handed out, and stay in use -/
theorem Draws.notMem (h : Draws p S p') {g : ℕ} (hg : g ∉ p.freeSet) : g ∉ S :=
  fun hS => hg (h.sub hS)

theorem Draws.notMem_free (h : Draws p S p') {g : ℕ} (hg : g ∉ p.freeSet) :
    g ∉ p'.freeSet := by
  rw [h.free, Finset.mem_sdiff]
  exact fun hc => hg hc.1

theorem Draws.taken_notMem_free (h : Draws p S p') {g : ℕ} (hg : g ∈ S) :
    g ∉ p'.freeSet := by
  rw [h.free, Finset.mem_sdiff]
  exact fun hc => hc.2 hg

/-- pages drawn later are not among those drawn before -/
theorem Draws.disjoint {r : Pmm} {T : Finset ℕ} (h1 : Draws p S q) (h2 : Draws q T r) : Disjoint S T := by
  rw [Finset.disjoint_right]
  intro i hi
  have := h2.sub hi
  rw [h1.free] at this
  exact (Finset.mem_sdiff.1 this).2

/-- the state apart from the reference counts -/
theorem Draws.setCounts (h : p.Ok) (r : ℕ → ℕ) : Draws p ∅ { p with refcounts := some r } :=
  ⟨⟨h.words, h.total, h.small, h.scan, h.count, h.zero⟩, Finset.empty_subset _, (Finset.sdiff_empty).symm, rfl, rfl⟩

/-- the array of reference counts is made of pages that were free -/
theorem refcountsGrow_spec (h : p.Ok) : Meets p.refcountsGrow (fun e => e = .wild ∧ p.refcounts = none)
    fun p' => ∃ S, Draws p S p' ∧ (p.refcounts ≠ none → S = ∅) ∧ p'.refcounts = some p.counts := by
  unfold refcountsGrow counts
  cases hr : p.refcounts with
  | some r => exact meets_ok ⟨∅, .refl h, fun _ => rfl, hr⟩
  | none =>
    have hlen : 0 < p.totalPages := h.total ▸ lt_of_le_of_lt (Nat.zero_le _) h.scan
    have hn : 0 < (p.totalPages * 2 + pageSize - 1) / pageSize := by
      unfold pageSize
      omega
    obtain ⟨pa, p', hrun, hcase⟩ := pmmAllocPages_spec h hn
    simp only [hrun, ok_bind]
    rcases hcase with ⟨rfl, -, -⟩ | ⟨f, rfl, hT⟩
    · exact meets_error ⟨rfl, trivial⟩
    · have hf : f ∈ p.freeSet := hT.run f le_rfl (by omega)
      rw [if_neg (pageIdx_of_free h hf).1]
      have hD := hT.takes.draws.trans (Draws.setCounts hT.takes.ok fun _ => 0)
      rw [Finset.union_empty] at hD
      exact meets_ok ⟨_, hD, fun hc => absurd rfl hc, rfl⟩

/-- **`pmm_ref`** counts one reference more to a page of the allocator and leaves other addresses alone. -/
theorem pmmRef_spec (h : p.Ok) (page : PAddr) : Meets (p.pmmRef page) (fun e => e = .wild ∧ p.refcounts = none)
    fun p' => ∃ S, Draws p S p' ∧ (p.refcounts ≠ none → S = ∅ ∧ p'.refcounts ≠ none) ∧
      if pageIdx page < p.bitmapLen then p'.refcounts = some (bump p.counts (pageIdx page)) else p' = p := by
  unfold pmmRef
  rw [h.total]
  by_cases hi : pageIdx page < p.bitmapLen
  · simp only [Nat.not_le.2 hi, if_false, if_pos hi]
    refine (refcountsGrow_spec h).bind ?_
    rintro q ⟨S, hD, hS, hq⟩
    simp only [hq]
    refine meets_ok ?_
    unfold bump
    split_ifs with hc
    · have hD' := hD.trans (Draws.setCounts hD.ok (update p.counts (pageIdx page) (p.counts (pageIdx page) + 1)))
      rw [Finset.union_empty] at hD'
      exact ⟨S, hD', fun hr => ⟨hS hr, by simp⟩, rfl⟩
    · exact ⟨S, hD, fun hr => ⟨hS hr, by simp [hq]⟩, hq⟩
  · simp only [Nat.not_lt.1 hi, if_true, if_neg hi]
    exact meets_ok ⟨∅, .refl h, fun hr => ⟨rfl, hr⟩, rfl⟩

/-- the pages of the array of reference counts -/
def arrayPages (p : Pmm) : ℕ := (p.totalPages * 2 + pageSize - 1) / pageSize

/-- **Page 0 taken for the array.** This happens to the first reference, if no run of free pages is long enough. -/
theorem pmmRef_wild (h : p.Ok) (page : PAddr) : p.pmmRef page = .error .wild ↔
    pageIdx page < p.bitmapLen ∧ p.refcounts = none ∧ ∀ f, ¬ p.FreeRun f p.arrayPages := by
  unfold pmmRef refcountsGrow
  rw [h.total]
  by_cases hi : pageIdx page < p.bitmapLen
  · rw [if_neg (Nat.not_le.2 hi), and_iff_right hi]
    cases hr : p.refcounts with
    | some r =>
      simp only [pure_eq_ok, ok_bind, hr]
      exact iff_of_false (fun hc => by cases hc) fun hc => by cases hc.1
    | none =>
      have hlen : 0 < p.bitmapLen := lt_of_le_of_lt (Nat.zero_le _) h.scan
      have hn : 0 < p.arrayPages := by
        rw [arrayPages, h.total, pageSize]
        omega
      obtain ⟨pa, p', hrun, hcase⟩ := pmmAllocPages_spec h hn
      rw [arrayPages, h.total] at hrun
      simp only [hrun, ok_bind, true_and]
      rcases hcase with ⟨rfl, -, hnone⟩ | ⟨f, rfl, hT⟩
      · exact iff_of_true rfl hnone
      · have hf : f ∈ p.freeSet := hT.run f le_rfl (by omega)
        rw [if_neg (pageIdx_of_free h hf).1]
        exact iff_of_false (fun hc => by cases hc) fun hc => hc f hT.run
  · rw [if_pos (Nat.not_lt.1 hi)]
    exact iff_of_false (fun hc => by cases hc) fun hc => hi hc.1

theorem counts_some {r : ℕ → ℕ} (h : p.refcounts = some r) : p.counts = r := by rw [counts, h]; rfl

theorem counts_none (h : p.refcounts = none) : p.counts = fun _ => 0 := by rw [counts, h]; rfl

/-- a page with more than one reference has it in the array -/
theorem getref_gt (h : p.Ok) (h1 : 1 < p.pmmGetref page) :
    p.refcounts = some p.counts ∧ pageIdx page < p.bitmapLen ∧ 1 < p.counts (pageIdx page) := by
  unfold pmmGetref at h1
  rw [h.total] at h1
  cases hr : p.refcounts with
  | none =>
    rw [hr] at h1
    exact absurd h1 (lt_irrefl 1)
  | some r =>
    simp only [hr] at h1
    split_ifs at h1 with hi
    · exact absurd h1 (by decide)
    · rw [counts_some hr]
      exact ⟨rfl, Nat.not_le.1 hi, h1⟩

theorem getref_eq (h : p.Ok) (hlt : pageIdx page < p.bitmapLen) (hr : p.refcounts ≠ none) :
    p.pmmGetref page = p.counts (pageIdx page) := by
  obtain ⟨r, hr⟩ := Option.ne_none_iff_exists'.1 hr
  rw [pmmGetref, hr, counts_some hr, h.total]
  exact if_neg (Nat.not_le.2 hlt)

/-- `pmm_unref` of page `i` gives the page back -/
def Lone (p : Pmm) (i : ℕ) : Prop := p.refcounts ≠ none ∧ p.counts i ≤ 1

/-- `p'` is `p` with one reference less to the used page `i` -/
structure Drops (p : Pmm) (i : ℕ) (p' : Pmm) : Prop where
  ok : p'.Ok
  len : p'.bitmapLen = p.bitmapLen
  counts : p'.counts = Function.update p.counts i (p.counts i - 1)
  array : p'.refcounts = none ↔ p.refcounts = none
  gives : p.Lone i → p'.freeSet = insert i p.freeSet ∧ p'.freed = i :: p.freed
  keeps : ¬ p.Lone i → p'.freeSet = p.freeSet ∧ p'.freed = p.freed

/-- **`pmm_unref` of a used page** gives it back with its last reference; before the array of counts exists it does
nothing. -/
theorem pmmUnref_spec (h : p.Ok) (hlt : pageIdx page < p.bitmapLen)
    (hused : pageIdx page ∉ p.freeSet) (h0 : pageIdx page ≠ 0) :
    ∃ p', p.pmmUnref page = .ok p' ∧ Drops p (pageIdx page) p' := by
  unfold pmmUnref
  cases hr : p.refcounts with
  | none =>
    refine ⟨p, rfl, h, rfl, ?_, Iff.rfl, fun hl => absurd hr hl.1, fun _ => ⟨rfl, rfl⟩⟩
    rw [counts_none hr]
    exact (update_eq_self _ _).symm
  | some r =>
    have hc : p.counts = r := counts_some hr
    have hi : ¬ p.totalPages ≤ pageIdx page := by rw [h.total]; omega
    simp only [if_neg hi]
    by_cases h1 : 1 < r (pageIdx page)
    · have hD := Draws.setCounts h (update r (pageIdx page) (r (pageIdx page) - 1))
      refine ⟨_, if_pos h1, hD.ok, rfl, by rw [hc]; rfl, by simp [hr], fun hl => ?_, fun _ => ⟨rfl, rfl⟩⟩
      exact absurd h1 (Nat.not_lt.2 (hc ▸ hl.2))
    · rw [if_neg h1]
      have hD := Draws.setCounts h (update r (pageIdx page) 0)
      obtain ⟨p', hrun, G⟩ := pmmFree_spec hD.ok page hlt hused
      refine ⟨p', hrun, G.ok h0, G.len, ?_, by simp [G.refs, hr], fun _ => ⟨G.free, G.freed⟩, fun hl => ?_⟩
      · rw [counts_some G.refs, hc]
        congr 1
        omega
      · exact absurd ⟨by simp [hr], by rw [hc]; omega⟩ hl

/-- `pmm_unref` of a page with more than one reference only counts -/
theorem pmmUnref_shared (h : p.Ok) (h1 : 1 < p.pmmGetref page) :
    ∃ p', p.pmmUnref page = .ok p' ∧ Draws p ∅ p' ∧
      p'.refcounts = some (update p.counts (pageIdx page) (p.counts (pageIdx page) - 1)) := by
  obtain ⟨hr, hlt, h1⟩ := getref_gt h h1
  refine ⟨_, ?_, Draws.setCounts h _, rfl⟩
  have hi : ¬ p.totalPages ≤ pageIdx page := by rw [h.total]; omega
  unfold pmmUnref
  simp only [hr, if_neg hi, if_pos h1]
  rfl

/-! ## A memory whose first pages are in use -/

/-- `len` pages, of which those below `first` are in use -/
def fresh (len first : ℕ) (r : Option (ℕ → ℕ)) : Pmm where
  bitmap w := if w = 0 then BitVec.allOnes 64 <<< first else BitVec.allOnes 64
  bitmapPhys := 0
  bmPages := len
  bitmapLen := len
  totalPages := len
  freeCount := len - first
  nextFreeScan := 0
  refcounts := r
  freed := []

theorem freeSet_fresh (len : ℕ) {first : ℕ} (r : Option (ℕ → ℕ)) (h : first < 64) :
    (fresh len first r).freeSet = Finset.Ico first len := by
  ext i
  have hi : i % 64 < 64 := Nat.mod_lt _ (by decide)
  have hbit : (fresh len first r).bit i = decide (first ≤ i) := by
    unfold bit fresh bmWord
    by_cases hw : i / 64 = 0
    · have : i % 64 = i := Nat.mod_eq_of_lt (by omega)
      simp only [hw, if_true, BitVec.getLsbD_shiftLeft, BitVec.getLsbD_allOnes, this]
      by_cases hle : first ≤ i
      · simp [hle, show i < 64 by omega, show i - first < 64 by omega]
      · simp [hle, show i < first by omega]
    · simp only [hw, if_false, BitVec.getLsbD_allOnes, hi, decide_true]
      simp only [true_eq_decide_iff]
      omega
  rw [mem_freeSet, hbit, Finset.mem_Ico, decide_eq_true_eq, and_comm]
  rfl

theorem fresh_ok {len first : ℕ} (r : Option (ℕ → ℕ)) (h0 : 0 < first) (h : first < 64) (h2 : first ≤ len)
    (hl : len ≤ 2 ^ 40) : (fresh len first r).Ok where
  words := by show len ≤ 64 * (512 * len); omega
  total := rfl
  small := by show len ≤ 2 ^ 52; omega
  scan := by show 0 < len; omega
  count := by rw [freeSet_fresh _ _ h, Nat.card_Ico]; rfl
  zero := by rw [freeSet_fresh _ _ h, Finset.mem_Ico]; omega

/-! ## First fit -/

theorem FreeRun.lt {f : ℕ} (h : p.FreeRun f n) (hn : 1 ≤ n) : f < p.bitmapLen :=
  (mem_freeSet.1 (h f le_rfl (by omega))).1

/-- a run of `n` free pages makes `n` free pages -/
theorem FreeRun.card_le {f : ℕ} (h : p.FreeRun f n) : n ≤ p.freeSet.card := by
  have hsub : Finset.Ico f (f + n) ⊆ p.freeSet := by
    intro j hj
    rw [Finset.mem_Ico] at hj
    exact h j hj.1 hj.2
  have hcard := Finset.card_le_card hsub
  rwa [Nat.card_Ico, Nat.add_sub_cancel_left] at hcard

/-- **Contiguous allocation is exact first fit**, over every bitmap. -/
theorem pmm_alloc_pages_first_fit (p : Pmm) (n : ℕ) (hn : 1 ≤ n) (hwords : p.bitmapLen ≤ 64 * (512 * p.bmPages))
    (hsmall : p.bitmapLen ≤ 2 ^ 52) (hzero : 0 ∉ p.freeSet) (hcount : p.freeSet.card ≤ p.freeCount) :
    ∃ pa p', p.pmmAllocPages n = .ok (pa, p') ∧ (pa = 0 ↔ ∀ f, ¬ p.FreeRun f n) ∧ (pa = 0 → p' = p) ∧
      ∀ f, p.FreeRun f n → (∀ g < f, ¬ p.FreeRun g n) →
        pa.toNat = f * 4096 ∧ (∀ j, p'.bit j = if f ≤ j ∧ j < f + n then false else p.bit j) ∧
          p'.freeCount + n = p.freeCount ∧ p'.bitmapLen = p.bitmapLen := by
  rcases pmmAllocPagesLoop_fit hwords n p.bitmapLen 0 0 (by omega) (.start p hn) with
    ⟨hrun, hnone⟩ | ⟨f, b, hrun, hfree, hfirst, hbit⟩
  · exact ⟨0, p, hrun, iff_of_true rfl hnone, fun _ => rfl, fun f hf => absurd hf (hnone f)⟩
  have hf0 : f ≠ 0 := fun hc => hzero (hfree 0 (by omega) (by omega))
  have hpa : pageAddr f ≠ 0 := pageAddr_ne_zero ((hfree.lt hn).trans_le hsmall) hf0
  refine ⟨_, _, hrun, iff_of_false hpa fun hnone => hnone f hfree, fun hc => absurd hc hpa, fun g hg hlow => ?_⟩
  obtain rfl : g = f := by
    rcases Nat.lt_trichotomy g f with h | h | h
    · exact absurd hg (hfirst g h)
    · exact h
    · exact absurd hfree (hlow f h)
  refine ⟨toNat_pageAddr ((hfree.lt hn).trans_le hsmall), fun j => ?_, ?_, rfl⟩
  · refine (hbit j).trans ?_
    have hmem : j ∈ List.range' g n ↔ g ≤ j ∧ j < g + n := List.mem_range'_1
    split_ifs with hin
    · rw [decide_eq_false (not_not.2 (hmem.2 hin)), Bool.false_and]
    · rw [decide_eq_true (mt hmem.1 hin), Bool.true_and]
  · have := hfree.card_le
    dsimp only
    omega

/-- the first three of the free pages -/
theorem first_fit_fresh : ∃ pa p', (fresh 64 2 none).pmmAllocPages 3 = .ok (pa, p') ∧ pa.toNat = 2 * 4096 ∧
    ∀ j, p'.bit j = if 2 ≤ j ∧ j < 5 then false else (fresh 64 2 none).bit j := by
  have hok : (fresh 64 2 none).Ok := fresh_ok none (by decide) (by decide) (by decide) (by decide)
  have hfree : (fresh 64 2 none).freeSet = Finset.Ico 2 64 := freeSet_fresh 64 none (by decide)
  obtain ⟨pa, p', hrun, -, -, hfit⟩ :=
    pmm_alloc_pages_first_fit (fresh 64 2 none) 3 (by decide) hok.words hok.small hok.zero hok.count.ge
  have hrun2 : (fresh 64 2 none).FreeRun 2 3 := fun j h1 h2 => by
    rw [hfree, Finset.mem_Ico]
    omega
  have hlow : ∀ g < 2, ¬ (fresh 64 2 none).FreeRun g 3 := fun g hg hr => by
    have := hr g le_rfl (by omega)
    rw [hfree, Finset.mem_Ico] at this
    omega
  obtain ⟨haddr, hbits, -⟩ := hfit 2 hrun2 hlow
  exact ⟨pa, p', hrun, haddr, hbits⟩

/-! ## The pages that are handed out -/

/-- the page that `pmm_alloc` hands out, and the allocator afterwards -/
def handOut (p : Pmm) : ℕ × Pmm :=
  match p.pmmAlloc with
  | .ok (pa, q) => (pageIdx pa, q)
  | .error _ => (0, p)

/-- the allocator after `n` pages -/
def skip (p : Pmm) (n : ℕ) : Pmm := (fun q => q.handOut.2)^[n] p

/-- the page that it hands out after them -/
def nth (p : Pmm) (n : ℕ) : ℕ := (p.skip n).handOut.1

variable {t : ℕ}

theorem skip_add (p : Pmm) (a b : ℕ) : p.skip (a + b) = (p.skip a).skip b := by
  rw [skip, Nat.add_comm, iterate_add_apply]
  rfl

theorem handOut_eq (h : p.pmmAlloc = .ok (pageAddr t, q)) (ht : t < 2 ^ 52) : p.handOut = (t, q) := by
  rw [handOut, h]
  exact congrArg (·, q) (pageIdx_pageAddr ht)

theorem skip_succ (h : (p.skip n).pmmAlloc = .ok (pageAddr t, q)) (ht : t < 2 ^ 52) : p.skip (n + 1) = q := by
  rw [skip_add]
  exact congrArg Prod.snd (handOut_eq h ht)

theorem nth_eq (h : (p.skip n).pmmAlloc = .ok (pageAddr t, q)) (ht : t < 2 ^ 52) : p.nth n = t :=
  congrArg Prod.fst (handOut_eq h ht)

theorem skip_takes (h : p.Ok) (n : ℕ) : ∃ S, Takes p S (p.skip n) := by
  induction n with
  | zero => exact ⟨∅, .refl h⟩
  | succ n ih =>
    obtain ⟨S, hS⟩ := ih
    obtain ⟨pa, q, hrun, hcase⟩ := pmmAlloc_spec hS.ok
    have hq : p.skip (n + 1) = q := by
      rw [skip_add]
      change (p.skip n).handOut.2 = q
      rw [handOut, hrun]
    rw [hq]
    rcases hcase with ⟨-, rfl, -⟩ | ⟨i, -, -, hT⟩
    · exact ⟨S, hS⟩
    · exact ⟨_, hS.trans hT⟩

end Uix.Pmm
