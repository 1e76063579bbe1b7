/-
The physical memory manager over whole runs: initialisation from a Limine memory map, then any sequence of allocations
and frees of pages that are held.

What is assumed of Limine (`LimineMap`): usable entries are page-aligned, fit below 2^64, are pairwise disjoint and
never contain page 0.

- `pmmInit_spec`: initialisation succeeds or panics for want of room for the bitmap; after it the free pages are the
  usable ones less the bitmap's own.
- `pmm_refines_pool`: from there every run succeeds, and refines a set allocator (`Pool`).
-/
import Uix.Memory.PmmSpec

namespace Uix.Pmm

open Machine List Function

variable {mm : List MemmapEntry} {i : ℕ} {U : Finset ℕ} {e : MemmapEntry}

/-! ## The memory map -/

/-- the addresses of an entry -/
def region (e : MemmapEntry) : Set ℕ := Set.Ico e.base.toNat (e.base.toNat + e.length.toNat)

/-- what Limine promises of its usable entries -/
structure LimineMap (mm : List MemmapEntry) : Prop where
  aligned : ∀ e ∈ mm, e.type = .usable → pageSize ∣ e.base.toNat ∧ pageSize ∣ e.length.toNat
  fits : ∀ e ∈ mm, e.type = .usable → e.base.toNat + e.length.toNat < 2 ^ 64
  disjoint : mm.Pairwise fun e f => e.type = .usable → f.type = .usable → Disjoint (region e) (region f)
  noZero : ∀ e ∈ mm, e.type = .usable → 0 ∉ region e

/-- page `i` lies in a usable entry -/
def UsablePage (mm : List MemmapEntry) (i : ℕ) : Prop :=
  ∃ e ∈ mm, e.type = .usable ∧ Set.Ico (i * pageSize) ((i + 1) * pageSize) ⊆ region e

/-- the pages of the bitmap itself -/
def bitmapPages (p : Pmm) : List ℕ := List.range' (pageIdx p.bitmapPhys) p.bmPages

theorem pageIdx_eq (a : PAddr) : pageIdx a = a.toNat / pageSize := by
  simp [pageIdx, pageSize, Nat.shiftRight_eq_div_pow]

theorem mem_entryPages :
    i ∈ entryPages e ↔ e.base.toNat / pageSize ≤ i ∧ i < e.base.toNat / pageSize + e.length.toNat / pageSize := by
  simp [entryPages, mem_range'_1, pageIdx_eq]

theorem page_subset_region (hb : pageSize ∣ e.base.toNat) (hl : pageSize ∣ e.length.toNat)
    (hi : i ∈ entryPages e) : Set.Ico (i * pageSize) ((i + 1) * pageSize) ⊆ region e := by
  obtain ⟨h1, h2⟩ := mem_entryPages.1 hi
  obtain ⟨b, hb⟩ := hb
  obtain ⟨l, hl⟩ := hl
  rw [hb, hl, Nat.mul_div_cancel_left _ (by decide), Nat.mul_div_cancel_left _ (by decide)] at h2
  rw [hb, Nat.mul_div_cancel_left _ (by decide)] at h1
  rintro a ⟨ha1, ha2⟩
  unfold pageSize at *
  constructor <;> rw [hb] <;> (try rw [hl]) <;> omega

theorem foldl_max_ge (mm : List MemmapEntry) (m : U64) :
    m.toNat ≤ (mm.foldl (fun m e => if e.type ≠ .usable then m else
      if m < e.base + e.length then e.base + e.length else m) m).toNat ∧
    ∀ e ∈ mm, e.type = .usable → (e.base + e.length).toNat ≤ (mm.foldl (fun m e => if e.type ≠ .usable then m else
      if m < e.base + e.length then e.base + e.length else m) m).toNat := by
  induction mm generalizing m with
  | nil => simp
  | cons e mm ih =>
    simp only [foldl_cons]
    set m' : U64 := if e.type ≠ .usable then m else if m < e.base + e.length then e.base + e.length else m with hm'
    obtain ⟨h1, h2⟩ := ih m'
    have hm : m.toNat ≤ m'.toNat := by
      rw [hm']; split_ifs with _ hlt
      · exact le_rfl
      · exact (BitVec.lt_def.1 hlt).le
      · exact le_rfl
    refine ⟨hm.trans h1, fun f hf hu => ?_⟩
    rcases mem_cons.1 hf with rfl | hf
    · have : (f.base + f.length).toNat ≤ m'.toNat := by
        rw [hm', if_neg (by simp [hu])]
        split_ifs with hlt
        · exact le_rfl
        · exact not_lt.1 fun h => hlt (BitVec.lt_def.2 h)
      exact this.trans h1
    · exact h2 f hf hu

theorem top_le_maxPa (h : LimineMap mm) (he : e ∈ mm)
    (hu : e.type = .usable) : e.base.toNat + e.length.toNat ≤ (maxPa mm).toNat := by
  have := (foldl_max_ge mm 0).2 e he hu
  rwa [BitVec.toNat_add, Nat.mod_eq_of_lt (h.fits e he hu)] at this

/-- the usable pages, entry by entry -/
def usableList (mm : List MemmapEntry) : List ℕ := mm.flatMap fun e => if e.type = .usable then entryPages e else []

theorem mem_usableList :
    i ∈ usableList mm ↔ ∃ e ∈ mm, e.type = .usable ∧ i ∈ entryPages e := by
  simp only [usableList, mem_flatMap]
  constructor
  · rintro ⟨e, he, hi⟩
    split_ifs at hi with hu
    · exact ⟨e, he, hu, hi⟩
    · simp at hi
  · rintro ⟨e, he, hu, hi⟩
    exact ⟨e, he, by rwa [if_pos hu]⟩

theorem usablePage_of_mem (h : LimineMap mm) (hi : i ∈ usableList mm) :
    UsablePage mm i := by
  obtain ⟨e, he, hu, hi⟩ := mem_usableList.1 hi
  exact ⟨e, he, hu, page_subset_region (h.aligned e he hu).1 (h.aligned e he hu).2 hi⟩

theorem usableList_lt (h : LimineMap mm) (hi : i ∈ usableList mm) :
    i < pageIdx (maxPa mm) := by
  obtain ⟨e, he, hu, hi⟩ := mem_usableList.1 hi
  have htop := top_le_maxPa h he hu
  obtain ⟨h1, h2⟩ := mem_entryPages.1 hi
  rw [pageIdx_eq]
  unfold pageSize at *
  omega

theorem zero_notMem_usableList (h : LimineMap mm) : 0 ∉ usableList mm := by
  intro h0
  obtain ⟨e, he, hu, h0⟩ := mem_usableList.1 h0
  exact h.noZero e he hu (page_subset_region (h.aligned e he hu).1 (h.aligned e he hu).2 h0 (by simp [pageSize]))

theorem usableList_nodup (h : LimineMap mm) : (usableList mm).Nodup := by
  rw [usableList, nodup_flatMap]
  constructor
  · intro e _
    split_ifs
    · exact nodup_range'
    · exact nodup_nil
  · refine h.disjoint.imp_of_mem fun {e f} he hf hd => ?_
    simp only [Function.onFun]
    split_ifs with h1 h2 <;> try simp
    -- a common page would put its first address in both regions
    intro i hi hi'
    have ha := page_subset_region (h.aligned e he h1).1 (h.aligned e he h1).2 hi
    have hb := page_subset_region (h.aligned f hf h2).1 (h.aligned f hf h2).2 hi'
    have hmem : i * pageSize ∈ Set.Ico (i * pageSize) ((i + 1) * pageSize) := by
      constructor
      · exact le_rfl
      · unfold pageSize; omega
    exact Set.disjoint_left.1 (hd h1 h2) (ha hmem) (hb hmem)

/-! ## Initialisation -/

theorem foldlM_markEntry (mm : List MemmapEntry) (p : Pmm) :
    mm.foldlM markEntry p = (usableList mm).foldlM markFree p := by
  induction mm generalizing p with
  | nil => rfl
  | cons e mm ih =>
    have hcons : usableList (e :: mm) = (if e.type = .usable then entryPages e else []) ++ usableList mm := by
      simp [usableList]
    rw [hcons, foldlM_append, foldlM_cons]
    have hfun : (fun q => mm.foldlM markEntry q) = fun q => (usableList mm).foldlM markFree q := funext ih
    by_cases hu : e.type = .usable
    · rw [if_pos hu, markEntry, if_neg (by simp [hu]), hfun]
    · rw [if_neg hu, markEntry, if_pos hu, hfun]; rfl

/-- marking distinct used pages free adds them to the free set and to the count -/
theorem foldlM_markFree (l : List ℕ) (p : Pmm) (hw : p.bitmapLen ≤ 64 * (512 * p.bmPages))
    (hl : l.Nodup) (hlt : ∀ i ∈ l, i < p.bitmapLen) (hu : ∀ i ∈ l, i ∉ p.freeSet) :
    ∃ b, l.foldlM markFree p = .ok { p with bitmap := b, freeCount := p.freeCount + l.length } ∧
      ({ p with bitmap := b, freeCount := p.freeCount + l.length } : Pmm).freeSet = p.freeSet ∪ l.toFinset := by
  induction l generalizing p with
  | nil => exact ⟨p.bitmap, rfl, by simp⟩
  | cons i l ih =>
    obtain ⟨hi, hl⟩ := nodup_cons.1 hl
    set q : Pmm := { p with
      bitmap := update p.bitmap (bmWord i) (p.bitmap (bmWord i) ||| bmBit i), freeCount := p.freeCount + 1 }
    have hstep : p.markFree i = .ok q := by
      simp only [markFree, setFree_eq (inWords_of_lt hw (hlt i mem_cons_self)), bind, Except.bind, pure, Except.pure]
      rfl
    have hq : q.freeSet = insert i p.freeSet := by
      ext j
      have hbj : q.bit j = (decide (j = i) || p.bit j) := bit_setWord_or p i j
      rw [mem_freeSet, hbj, Finset.mem_insert, mem_freeSet]
      simp only [Bool.or_eq_true, decide_eq_true_eq]
      constructor
      · rintro ⟨h1, h2 | h2⟩
        · exact Or.inl h2
        · exact Or.inr ⟨h1, h2⟩
      · rintro (rfl | h2)
        · exact ⟨hlt j mem_cons_self, Or.inl rfl⟩
        · exact ⟨h2.1, Or.inr h2.2⟩
    obtain ⟨b, hb, hf⟩ := ih q hw hl (fun j hj => hlt j (mem_cons_of_mem i hj)) fun j hj hjq => by
      rw [hq, Finset.mem_insert] at hjq
      rcases hjq with rfl | hjq
      · exact hi hj
      · exact hu j (mem_cons_of_mem i hj) hjq
    have hcount : q.freeCount + l.length = p.freeCount + (i :: l).length := by simp [q]; omega
    refine ⟨b, ?_, ?_⟩
    · rw [foldlM_cons_ok]
      exact ⟨q, hstep, by rw [hb, hcount]⟩
    · rw [← hcount]
      refine hf.trans ?_
      rw [hq, toFinset_cons, Finset.insert_union, Finset.union_insert]

/-- reserving distinct free pages takes them out of the free set and of the count -/
theorem foldlM_reserve (l : List ℕ) (p : Pmm) (h : ∀ i ∈ l, p.InWords i) :
    ∃ b, l.foldlM reserve p = .ok { p with bitmap := b, freeCount := p.freeCount - l.length } ∧
      ({ p with bitmap := b, freeCount := p.freeCount - l.length } : Pmm).freeSet = p.freeSet \ l.toFinset := by
  induction l generalizing p with
  | nil => exact ⟨p.bitmap, rfl, by simp⟩
  | cons i l ih =>
    set q : Pmm := { p with
      bitmap := update p.bitmap (bmWord i) (p.bitmap (bmWord i) &&& ~~~ bmBit i), freeCount := p.freeCount - 1 }
    have hstep : p.reserve i = .ok q := by
      simp only [reserve, setUsed_eq (h i mem_cons_self), bind, Except.bind, pure, Except.pure]
      rfl
    have hq : q.freeSet = p.freeSet.erase i := by
      ext j
      have hbj : q.bit j = (decide (j ≠ i) && p.bit j) := bit_setWord_and p i j
      rw [mem_freeSet, hbj, Finset.mem_erase, mem_freeSet]
      simp only [Bool.and_eq_true, decide_eq_true_eq]
      tauto
    obtain ⟨b, hb, hf⟩ := ih q (fun j hj => h j (mem_cons_of_mem i hj))
    have hcount : q.freeCount - l.length = p.freeCount - (i :: l).length := by simp [q]; omega
    refine ⟨b, ?_, ?_⟩
    · rw [foldlM_cons_ok]
      exact ⟨q, hstep, by rw [hb, hcount]⟩
    · rw [← hcount]
      refine hf.trans ?_
      ext j
      simp only [hq, Finset.mem_sdiff, Finset.mem_erase, toFinset_cons, Finset.mem_insert]
      tauto

/-- the cleared bytes cover the bits of all pages -/
theorem clearBytes_bit (junk : ℕ → U64) {len : ℕ} (hi : i < len) :
    (clearBytes junk (bmBytes len) (bmWord i)).getLsbD (i % 64) = false := by
  have hlt : i % 64 < 8 * min 8 (bmBytes len - 8 * bmWord i) := by
    unfold bmBytes bmWord; omega
  simp [clearBytes, BitVec.getLsbD_shiftLeft, hlt]

/-- the entry that holds the bitmap -/
theorem bmPage_spec {pages : ℕ} (h : bmPage mm pages ≠ 0) :
    ∃ e ∈ mm, e.type = .usable ∧ (pages + 1) * pageSize ≤ e.length.toNat ∧ bmPage mm pages = e.base := by
  unfold bmPage at h ⊢
  cases hf : mm.find? (fun e => e.type = .usable ∧ (pages + 1) * pageSize ≤ e.length.toNat) with
  | none => rw [hf] at h; exact absurd rfl h
  | some e =>
    have hp := find?_some hf
    simp only [Bool.decide_and, Bool.and_eq_true, decide_eq_true_eq] at hp
    exact ⟨e, mem_of_find?_eq_some hf, hp.1, hp.2, rfl⟩

/-- the allocator after initialisation: its free pages are the usable ones less the bitmap's own -/
structure Initial (mm : List MemmapEntry) (p : Pmm) : Prop where
  ok : p.Ok
  free : p.freeSet = (usableList mm).toFinset \ p.bitmapPages.toFinset
  refs : p.refcounts = none

/-- **Initialisation** succeeds when a usable entry has room for the bitmap. -/
theorem pmmInit_ok (h : LimineMap mm) (junk : ℕ → U64)
    (hpage : bmPage mm (bmPagesFor (pageIdx (maxPa mm))) ≠ 0) : ∃ p, pmmInit mm junk = .ok p ∧ Initial mm p := by
  set len := pageIdx (maxPa mm) with hlen
  set pages := bmPagesFor len with hpages
  obtain ⟨e, he, hu, hroom, hbase⟩ := bmPage_spec hpage
  have hwords : len ≤ 64 * (512 * pages) := by
    rw [hpages]; unfold bmPagesFor bmBytes pageSize; omega
  set p0 : Pmm := ⟨clearBytes junk (bmBytes len), bmPage mm pages, pages, len, len, 0, 0, none, []⟩
  have hfree0 : p0.freeSet = ∅ := by
    ext i
    simp only [mem_freeSet, Finset.notMem_empty, iff_false, not_and]
    intro hi hb
    have : p0.bit i = false := clearBytes_bit junk hi
    rw [this] at hb
    exact absurd hb (by decide)
  obtain ⟨b1, hb1, hf1⟩ := foldlM_markFree (usableList mm) p0 hwords (usableList_nodup h)
    (fun i hi => usableList_lt h hi) (fun i _ => by simp [hfree0])
  set p1 : Pmm := { p0 with bitmap := b1, freeCount := p0.freeCount + (usableList mm).length }
  -- the bitmap's pages are the first pages of entry `e`
  have hsub : ∀ i ∈ range' (pageIdx (bmPage mm pages)) pages, i ∈ usableList mm := by
    intro i hi
    refine mem_usableList.2 ⟨e, he, hu, mem_entryPages.2 ?_⟩
    rw [mem_range'_1, hbase, pageIdx_eq] at hi
    unfold pageSize at *
    omega
  have hlt : ∀ i ∈ range' (pageIdx (bmPage mm pages)) pages, i < len :=
    fun i hi => usableList_lt h (hsub i hi)
  obtain ⟨b2, hb2, hf2⟩ := foldlM_reserve (range' (pageIdx (bmPage mm pages)) pages) p1
    (fun i hi => inWords_of_lt (p := p1) hwords (hlt i hi))
  set p2 : Pmm := { p1 with
    bitmap := b2, freeCount := p1.freeCount - (range' (pageIdx (bmPage mm pages)) pages).length }
  have hf1' : p1.freeSet = (usableList mm).toFinset := by rw [hf1, hfree0, Finset.empty_union]
  have hf2' : p2.freeSet = (usableList mm).toFinset \ (range' (pageIdx (bmPage mm pages)) pages).toFinset := by
    rw [hf2, hf1']
  refine ⟨p2, ?_, ⟨hwords, rfl, ?_, ?_, ?_, ?_⟩, hf2', rfl⟩
  · simp only [pmmInit, ← hlen, ← hpages, hpage, if_false, foldlM_markEntry]
    rw [bind_ok]
    exact ⟨p1, hb1, hb2⟩
  · show len ≤ 2 ^ 52
    have := (maxPa mm).isLt
    rw [hlen, pageIdx_eq]
    unfold pageSize
    omega
  · show 0 < len
    have := top_le_maxPa h he hu
    rw [hlen, pageIdx_eq]
    unfold pageSize at *
    omega
  · rw [hf2', Finset.card_sdiff_of_subset, toFinset_card_of_nodup (usableList_nodup h),
      toFinset_card_of_nodup nodup_range']
    · simp [p2, p1, p0]
    · exact fun i hi => mem_toFinset.2 (hsub i (mem_toFinset.1 hi))
  · rw [hf2']
    exact fun h0 => zero_notMem_usableList h (mem_toFinset.1 (Finset.mem_sdiff.1 h0).1)

/-- initialisation panics for want of room for the bitmap, or succeeds -/
theorem pmmInit_spec (h : LimineMap mm) (junk : ℕ → U64) :
    pmmInit mm junk = .error (.panic .pmmNoBitmap) ∨ ∃ p, pmmInit mm junk = .ok p ∧ Initial mm p := by
  by_cases hpage : bmPage mm (bmPagesFor (pageIdx (maxPa mm))) = 0
  · left
    simp only [pmmInit, hpage, if_true]
  · exact Or.inr (pmmInit_ok h junk hpage)

/-! ## Runs -/

/-- what a kernel does with the allocator; `free k` gives back the `k`-th page it holds -/
inductive Op where
  | alloc
  | allocPages (n : ℕ)
  | free (k : ℕ)
  deriving DecidableEq, Repr

/-- the allocator and the pages handed out and not yet freed, latest first -/
structure Sys where
  pmm : Pmm
  held : List ℕ

def step (s : Sys) : Op → Except Stop Sys
  | .alloc => do
    let (pa, p) ← s.pmm.pmmAlloc
    pure ⟨p, if pa = 0 then s.held else pageIdx pa :: s.held⟩
  | .allocPages n => do
    let (pa, p) ← s.pmm.pmmAllocPages n
    pure ⟨p, if pa = 0 then s.held else List.range' (pageIdx pa) n ++ s.held⟩
  | .free k =>
    match s.held[k]? with
    | none => pure s
    | some i => do
      let p ← s.pmm.pmmFree (pageAddr i)
      pure ⟨p, s.held.eraseIdx k⟩

/-- the set allocator: the set of free pages and the pages handed out -/
structure Pool where
  free : Finset ℕ
  held : List ℕ

/-- one operation of the set allocator: any free page, any free run, and every page held can go back -/
inductive Pool.Step : Pool → Op → Pool → Prop where
  | alloc {P : Pool} {i : ℕ} : i ∈ P.free → Pool.Step P .alloc ⟨P.free.erase i, i :: P.held⟩
  | allocNone {P : Pool} : P.free = ∅ → Pool.Step P .alloc P
  | run {P : Pool} {f n : ℕ} : 0 < n → (∀ j, f ≤ j → j < f + n → j ∈ P.free) →
      Pool.Step P (.allocPages n) ⟨P.free \ (List.range' f n).toFinset, List.range' f n ++ P.held⟩
  | runNone {P : Pool} {n : ℕ} : (n = 0 ∨ ∀ f, ∃ j, f ≤ j ∧ j < f + n ∧ j ∉ P.free) → Pool.Step P (.allocPages n) P
  | free {P : Pool} {k i : ℕ} : P.held[k]? = some i → Pool.Step P (.free k) ⟨insert i P.free, P.held.eraseIdx k⟩
  | freeNone {P : Pool} {k : ℕ} : P.held[k]? = none → Pool.Step P (.free k) P

def Sys.pool (s : Sys) : Pool := ⟨s.pmm.freeSet, s.held⟩

/-- the pages `U` are divided between the free set and the pages held -/
structure Split (U : Finset ℕ) (s : Sys) : Prop where
  ok : s.pmm.Ok
  nodup : s.held.Nodup
  used : ∀ i ∈ s.held, i ∉ s.pmm.freeSet
  all : s.pmm.freeSet ∪ s.held.toFinset = U

theorem Split.mem {s : Sys} (h : Split U s) (hi : i ∈ s.held) : i ∈ U := by
  rw [← h.all]; exact Finset.mem_union_right _ (mem_toFinset.2 hi)

/-- handing out distinct free pages keeps the division -/
theorem Split.take {s : Sys} (h : Split U s) {l : List ℕ} (hl : l.Nodup) {p : Pmm}
    (ht : Takes s.pmm l.toFinset p) : Split U ⟨p, l ++ s.held⟩ where
  ok := ht.ok
  nodup := by
    rw [nodup_append]
    exact ⟨hl, h.nodup, fun i hi j hj e => h.used j hj (e ▸ ht.sub (mem_toFinset.2 hi))⟩
  used i hi := by
    rw [ht.free, Finset.mem_sdiff, mem_toFinset, not_and, not_not]
    intro hf
    rcases mem_append.1 hi with hi | hi
    · exact hi
    · exact absurd hf (h.used i hi)
  all := by
    show p.freeSet ∪ (l ++ s.held).toFinset = U
    rw [ht.free, toFinset_append, ← Finset.union_assoc, Finset.sdiff_union_of_subset ht.sub, h.all]

/-- the pages `U` of a run, with what holds of them -/
structure PoolPages (U : Finset ℕ) (len : ℕ) : Prop where
  zero : 0 ∉ U
  lt : ∀ i ∈ U, i < len

/-- the run invariant: the division of `U`, with the bitmap where initialisation put it -/
structure RunInv (U : Finset ℕ) (p0 : Pmm) (s : Sys) : Prop where
  split : Split U s
  len : s.pmm.bitmapLen = p0.bitmapLen
  phys : s.pmm.bitmapPhys = p0.bitmapPhys
  pages : s.pmm.bmPages = p0.bmPages

theorem RunInv.take {p0 : Pmm} {s : Sys} (h : RunInv U p0 s) {l : List ℕ} (hl : l.Nodup) {p : Pmm}
    (ht : Takes s.pmm l.toFinset p) : RunInv U p0 ⟨p, l ++ s.held⟩ :=
  ⟨h.split.take hl ht, ht.len.trans h.len, ht.phys.trans h.phys, ht.pages.trans h.pages⟩

/-- **One step**: from a divided pool every operation succeeds, keeps the division and is a step of the set
allocator. -/
theorem step_refines {p0 : Pmm} (hU : PoolPages U p0.bitmapLen) (s : Sys) (o : Op)
    (h : RunInv U p0 s) : ∃ t, step s o = .ok t ∧ RunInv U p0 t ∧ Pool.Step s.pool o t.pool := by
  have hok := h.split.ok
  cases o with
  | alloc =>
    obtain ⟨pa, p, hrun, ⟨rfl, rfl, hempty⟩ | ⟨i, hi, rfl, ht⟩⟩ := pmmAlloc_spec hok
    · refine ⟨s, ?_, h, .allocNone hempty⟩
      simp only [step, hrun, bind, Except.bind, pure, Except.pure, if_true]
    · obtain ⟨hne, hidx⟩ := pageIdx_of_free hok hi
      have ht' : Takes s.pmm [i].toFinset p := by simpa using ht
      refine ⟨⟨p, [i] ++ s.held⟩, ?_, h.take (nodup_singleton i) ht', ?_⟩
      · simp only [step, hrun, bind, Except.bind, pure, Except.pure, hne, if_false, hidx]
        rfl
      · have hf : p.freeSet = s.pmm.freeSet.erase i := by rw [ht.free, Finset.sdiff_singleton_eq_erase]
        have := Pool.Step.alloc (P := s.pool) hi
        rwa [show (⟨s.pool.free.erase i, i :: s.pool.held⟩ : Pool) = Sys.pool ⟨p, [i] ++ s.held⟩ by
          simp [Sys.pool, hf]] at this
  | allocPages n =>
    rcases Nat.eq_zero_or_pos n with rfl | hn
    · refine ⟨s, ?_, h, .runNone (Or.inl rfl)⟩
      simp only [step, pmmAllocPages_zero hok, bind, Except.bind, pure, Except.pure, if_true]
    · obtain ⟨pa, p, hrun, ⟨rfl, rfl, hnone⟩ | ⟨f, rfl, ht⟩⟩ := pmmAllocPages_spec hok hn
      · refine ⟨s, ?_, h, .runNone (Or.inr fun f => ?_)⟩
        · simp only [step, hrun, bind, Except.bind, pure, Except.pure, if_true]
        · have := hnone f
          simp only [FreeRun, not_forall] at this
          obtain ⟨j, h1, h2, h3⟩ := this
          exact ⟨j, h1, h2, h3⟩
      · obtain ⟨hne, hidx⟩ := pageIdx_of_free hok (ht.run f le_rfl (by omega))
        refine ⟨⟨p, range' f n ++ s.held⟩, ?_, h.take nodup_range' ht.takes, ?_⟩
        · simp only [step, hrun, bind, Except.bind, pure, Except.pure, hne, if_false, hidx]
        · have := Pool.Step.run (P := s.pool) hn ht.run
          rwa [show (⟨s.pool.free \ (range' f n).toFinset, range' f n ++ s.pool.held⟩ : Pool) =
            Sys.pool ⟨p, range' f n ++ s.held⟩ by simp [Sys.pool, ht.takes.free]] at this
  | free k =>
    cases hk : s.held[k]? with
    | none => exact ⟨s, by simp only [step, hk, pure, Except.pure], h, .freeNone hk⟩
    | some i =>
      have hmem : i ∈ s.held := mem_of_getElem? hk
      have hiU := h.split.mem hmem
      have hlt : i < s.pmm.bitmapLen := h.len ▸ hU.lt i hiU
      have hidx : pageIdx (pageAddr i) = i := pageIdx_pageAddr (lt_of_lt_of_le hlt hok.small)
      have h0 : i ≠ 0 := fun e => hU.zero (e ▸ hiU)
      obtain ⟨p, hrun, hg⟩ := pmmFree_spec hok (pageAddr i) (by rwa [hidx])
        (by rw [hidx]; exact h.split.used i hmem)
      rw [hidx] at hg
      -- the `k`-th page leaves the list of pages held and nothing else does
      have hperm : s.held.Perm (i :: s.held.eraseIdx k) := by
        obtain ⟨hk', rfl⟩ := List.getElem?_eq_some_iff.1 hk
        exact (getElem_cons_eraseIdx_perm hk').symm
      have hnd : (i :: s.held.eraseIdx k).Nodup := hperm.nodup_iff.1 h.split.nodup
      refine ⟨⟨p, s.held.eraseIdx k⟩, ?_, ⟨⟨hg.ok h0, (nodup_cons.1 hnd).2, ?_, ?_⟩, hg.len.trans h.len,
        hg.phys.trans h.phys, hg.pages.trans h.pages⟩, ?_⟩
      · simp only [step, hk, hrun, bind, Except.bind, pure, Except.pure]
      · intro j hj
        rw [hg.free, Finset.mem_insert, not_or]
        exact ⟨fun e => (nodup_cons.1 hnd).1 (e ▸ hj), h.split.used j (hperm.mem_iff.2 (mem_cons_of_mem i hj))⟩
      · show p.freeSet ∪ (s.held.eraseIdx k).toFinset = U
        rw [hg.free, Finset.insert_union, ← Finset.union_insert, ← toFinset_cons,
          ← toFinset_eq_of_perm _ _ hperm, h.split.all]
      · have := Pool.Step.free (P := s.pool) hk
        rwa [show (⟨insert i s.pool.free, s.pool.held.eraseIdx k⟩ : Pool) = Sys.pool ⟨p, s.held.eraseIdx k⟩ by
          simp [Sys.pool, hg.free]] at this

/-- **The allocator refines a set allocator.** For every Limine map on which initialisation does not panic, and every
sequence of allocations and frees of held pages: the run never stops (so `pmm_free` never panics and no bitmap word
outside the reserved pages is touched) and is a run of the set allocator; the pages held are distinct, usable and not
the bitmap's; the count is the number of set bits, the cursor is in range, and `pmm_alloc` returns 0 exactly when no
page is free. -/
theorem pmm_refines_pool (mm : List MemmapEntry) (junk : ℕ → U64) (hmm : LimineMap mm)
    (hinit : ∀ q, pmmInit mm junk ≠ .error (.panic q)) :
    ∃ p, pmmInit mm junk = .ok p ∧ ∀ ops : List Op, ∃ s, run step ⟨p, []⟩ ops = .ok s ∧
      Steps Pool.Step ⟨p.freeSet, []⟩ ops s.pool ∧
      s.held.Nodup ∧ (∀ i ∈ s.held, UsablePage mm i ∧ i ∉ s.pmm.bitmapPages ∧ i ∉ s.pmm.freeSet) ∧
      s.pmm.freeCount = ((Finset.range s.pmm.bitmapLen).filter fun i => s.pmm.bit i).card ∧
      s.pmm.nextFreeScan < s.pmm.bitmapLen ∧
      ∃ pa q, s.pmm.pmmAlloc = .ok (pa, q) ∧ (pa = 0 ↔ ∀ i < s.pmm.bitmapLen, s.pmm.bit i = false) := by
  rcases pmmInit_spec hmm junk with hp | ⟨p, hp, hI⟩
  · exact absurd hp (hinit _)
  refine ⟨p, hp, fun ops => ?_⟩
  have hU : PoolPages p.freeSet p.bitmapLen := ⟨hI.ok.zero, fun i hi => (mem_freeSet.1 hi).1⟩
  have h0 : RunInv p.freeSet p ⟨p, []⟩ := ⟨⟨hI.ok, List.nodup_nil, by simp, by simp⟩, rfl, rfl, rfl⟩
  obtain ⟨s, hrun, hs, hsteps⟩ := run_refines (RunInv p.freeSet p) Sys.pool Pool.Step (step_refines hU) ops h0
  refine ⟨s, hrun, hsteps, hs.split.nodup, fun i hi => ?_, ?_, hs.split.ok.scan, ?_⟩
  · have hiU := hs.split.mem hi
    rw [hI.free, Finset.mem_sdiff, List.mem_toFinset, List.mem_toFinset] at hiU
    refine ⟨usablePage_of_mem hmm hiU.1, ?_, hs.split.used i hi⟩
    rw [bitmapPages, hs.phys, hs.pages]
    exact hiU.2
  · rw [hs.split.ok.count]
    rfl
  · obtain ⟨pa, q, hq, ⟨rfl, rfl, hempty⟩ | ⟨i, hi, rfl, _⟩⟩ := pmmAlloc_spec hs.split.ok
    · refine ⟨0, _, hq, iff_of_true rfl fun i hi => ?_⟩
      by_contra hb
      have : i ∈ s.pmm.freeSet := mem_freeSet.2 ⟨hi, by simpa using hb⟩
      rw [hempty] at this
      simp at this
    · refine ⟨_, q, hq, iff_of_false (pageIdx_of_free hs.split.ok hi).1 fun hall => ?_⟩
      obtain ⟨h1, h2⟩ := mem_freeSet.1 hi
      rw [hall i h1] at h2
      exact absurd h2 (by decide)

/-- four usable pages from page 1 on -/
def smallMap : List MemmapEntry := [⟨0x1000, 0x4000, .usable⟩]

theorem smallMap_limine : LimineMap smallMap where
  aligned := by simp [smallMap, pageSize]
  fits := by simp [smallMap]
  disjoint := pairwise_singleton _ _
  noZero := by simp [smallMap, region]

/-- on the small map initialisation does not panic, and every run of the allocator goes through -/
theorem pmm_refines_pool_small :
    ∃ p, pmmInit smallMap (fun _ => 0) = .ok p ∧ ∀ ops : List Op, ∃ s, run step ⟨p, []⟩ ops = .ok s ∧ s.held.Nodup := by
  have hp : ∀ q, pmmInit smallMap (fun _ => 0) ≠ .error (.panic q) := by
    intro q hq
    obtain ⟨p, hp, _⟩ := pmmInit_ok smallMap_limine (fun _ => 0) (by decide)
    rw [hp] at hq
    exact absurd hq (by simp)
  obtain ⟨p, hinit, hall⟩ := pmm_refines_pool smallMap (fun _ => 0) smallMap_limine hp
  refine ⟨p, hinit, fun ops => ?_⟩
  obtain ⟨s, hrun, _, hnd, _⟩ := hall ops
  exact ⟨s, hrun, hnd⟩

end Uix.Pmm
