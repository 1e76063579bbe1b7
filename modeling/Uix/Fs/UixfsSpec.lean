/-
What the functions of UIXFS do to the page allocator and to memory.

- `fileBufFree_spec`, `fileBufAlloc_spec`: the result buffer is given back and taken anew.
- `readEntry_cases`: what a read of an entry can come to.
- `uixfsRead_spec`: the old buffer is given back, a new one is taken, and only its pages are written.
- `strcmp_eq_zero`: a name compares equal to itself only.
- `mountEntries_spec`: the entries are copied from the sectors after the first.
-/
import Uix.Fs.Uixfs
import Uix.Memory.PmmSpec

namespace Uix

open Machine Bytes List
open Pmm (pageIdx pageAddr pageAddr_add toNat_pageAddr Takes Gives TakesRun)

namespace Uixfs

/-! ## The result buffer -/

/-- the pages of the result buffer -/
def bufPages (fs : Uixfs) : List ℕ :=
  match fs.fileBuf with
  | none => []
  | some pa => List.range' (pageIdx pa) fs.fileBufPages

/-- the buffer is made of pages in use -/
structure Held (fs : Uixfs) (k : Kern) : Prop where
  addr : ∀ pa, fs.fileBuf = some pa → ∃ f, f ≠ 0 ∧ f < 2 ^ 52 ∧ pa = pageAddr f
  inside : ∀ j ∈ fs.bufPages, j < k.pmm.bitmapLen
  used : ∀ j ∈ fs.bufPages, j ∉ k.pmm.freeSet

/-- the pages of a list given back, latest first -/
structure GivesAll (p : Pmm) (l : List ℕ) (p' : Pmm) : Prop where
  ok : p'.Ok
  free : p'.freeSet = p.freeSet ∪ l.toFinset
  len : p'.bitmapLen = p.bitmapLen
  refs : p'.refcounts = p.refcounts
  freed : p'.freed = l.reverse ++ p.freed

theorem GivesAll.refl {p : Pmm} (h : p.Ok) : GivesAll p [] p := ⟨h, by simp, rfl, rfl, rfl⟩

theorem GivesAll.snoc {p p' p'' : Pmm} {l : List ℕ} {i : ℕ} (h : GivesAll p l p') (hg : Gives p' i p'') (h0 : i ≠ 0) :
    GivesAll p (l ++ [i]) p'' := by
  refine ⟨hg.ok h0, ?_, hg.len.trans h.len, hg.refs.trans h.refs, ?_⟩
  · rw [hg.free, h.free, toFinset_append, toFinset_cons, toFinset_nil, insert_empty_eq, ← Finset.union_assoc,
      Finset.insert_eq, Finset.union_comm]
  · rw [hg.freed, h.freed, reverse_append, reverse_singleton]
    rfl

section Buffer

variable {fs : Uixfs} {k : Kern}

/-- the loop of `file_buf_free` -/
theorem freePages_spec {f n : ℕ} (hk : k.pmm.Ok) (h0 : f ≠ 0) (hin : ∀ j, f ≤ j → j < f + n → j < k.pmm.bitmapLen)
    (hused : ∀ j, f ≤ j → j < f + n → j ∉ k.pmm.freeSet) :
    ∃ p, (List.range n).foldlM (fun k i => k.pmmFree (pageAddr f + BitVec.ofNat 64 (i * pageSize))) k =
    .ok (k.setPmm p) ∧
      GivesAll k.pmm (range' f n) p := by
  induction n with
  | zero => exact ⟨k.pmm, rfl, .refl hk⟩
  | succ n ih =>
    obtain ⟨p, hrun, hp⟩ := ih (fun j h1 h2 => hin j h1 (by omega)) fun j h1 h2 => hused j h1 (by omega)
    have hlt := hin (f + n) (by omega) (by omega)
    have hidx : pageIdx (pageAddr (f + n)) = f + n :=
      Pmm.pageIdx_pageAddr (lt_of_lt_of_le hlt hk.small)
    have hnot : f + n ∉ p.freeSet := by
      rw [hp.free, Finset.mem_union, mem_toFinset, mem_range'_1, not_or]
      exact ⟨hused _ (by omega) (by omega), by omega⟩
    obtain ⟨p', hfree, hg⟩ := Pmm.pmmFree_spec hp.ok (pageAddr (f + n)) (by rw [hidx, hp.len]; exact hlt)
      (by rw [hidx]; exact hnot)
    rw [hidx] at hg
    refine ⟨p', ?_, ?_⟩
    · rw [range_succ, foldlM_append, hrun, ok_bind, foldlM_cons, pageAddr_add, Kern.pmmFree,
        show (k.setPmm p).pmm = p from rfl, hfree]
      rfl
    · rw [range'_1_concat]
      exact hp.snoc hg (by omega)

/-- **`file_buf_free`** gives the buffer back. -/
theorem fileBufFree_spec (h : Held fs k) (hk : k.pmm.Ok) :
    ∃ p n, fs.fileBufFree k = .ok ({ fs with fileBuf := none, fileBufPages := n }, k.setPmm p) ∧
      GivesAll k.pmm fs.bufPages p := by
  unfold fileBufFree bufPages
  cases hb : fs.fileBuf with
  | none =>
    have hfs : { fs with fileBuf := none, fileBufPages := fs.fileBufPages } = fs := by rw [← hb]
    refine ⟨k.pmm, fs.fileBufPages, ?_, .refl hk⟩
    rw [hfs]
    rfl
  | some pa =>
    obtain ⟨f, h0, h52, rfl⟩ := h.addr pa hb
    have hpages : fs.bufPages = range' f fs.fileBufPages := by
      rw [bufPages, hb]
      simp only [Pmm.pageIdx_pageAddr h52]
    obtain ⟨p, hrun, hp⟩ := freePages_spec (n := fs.fileBufPages) hk h0
      (fun j h1 h2 => h.inside j (by rw [hpages, mem_range'_1]; exact ⟨h1, h2⟩))
      fun j h1 h2 => h.used j (by rw [hpages, mem_range'_1]; exact ⟨h1, h2⟩)
    refine ⟨p, 0, ?_, ?_⟩
    · simp only [hrun, ok_bind]
      rfl
    · simp only [Pmm.pageIdx_pageAddr h52]
      exact hp

/-- what `file_buf_alloc` does: the old buffer is given back, and a run of pages is taken for the new one -/
structure BufAllocated (fs : Uixfs) (k : Kern) (size : ℕ) (p : Pmm) (f : ℕ) (p' : Pmm) : Prop where
  gives : GivesAll k.pmm fs.bufPages p
  takes : TakesRun p f ((size + pageSize - 1) / pageSize) p'
  some : 0 < size

/-- **`file_buf_alloc`.** -/
theorem fileBufAlloc_spec (h : Held fs k) (hk : k.pmm.Ok) (size : ℕ) :
    (∃ p, GivesAll k.pmm fs.bufPages p ∧ (size = 0 ∨ ∀ f, ¬ p.FreeRun f ((size + pageSize - 1) / pageSize)) ∧
      fs.fileBufAlloc k size = .ok (none, { fs with fileBuf := none, fileBufPages := 0 }, k.setPmm p)) ∨
    ∃ p f p', BufAllocated fs k size p f p' ∧ fs.fileBufAlloc k size =
      .ok (Option.some (pageAddr f), { fs with fileBuf := Option.some (pageAddr f), fileBufPages :=
        (size + pageSize - 1) / pageSize }, k.setPmm p') := by
  obtain ⟨p, n, hfree, hp⟩ := fileBufFree_spec h hk
  unfold fileBufAlloc
  rw [hfree, ok_bind]
  simp only [Kern.pmmAllocPages, show (k.setPmm p).pmm = p from rfl]
  rcases Nat.eq_zero_or_pos size with rfl | hpos
  · refine .inl ⟨p, hp, .inl rfl, ?_⟩
    rw [show (0 + pageSize - 1) / pageSize = 0 by decide, Pmm.pmmAllocPages_zero hp.ok]
    rfl
  · have hn : 0 < (size + pageSize - 1) / pageSize := by
      rw [pageSize]
      omega
    obtain ⟨pa, p', hrun, hcase⟩ := Pmm.pmmAllocPages_spec hp.ok hn
    rw [hrun]
    rcases hcase with ⟨rfl, rfl, hnone⟩ | ⟨f, rfl, T⟩
    · exact .inl ⟨p', hp, .inr hnone, rfl⟩
    · refine .inr ⟨p, f, p', ⟨hp, T, hpos⟩, ?_⟩
      have hf := T.run f le_rfl (by omega)
      simp only [ok_bind, pure_eq_ok, if_neg (Pmm.pageIdx_of_free hp.ok hf).1]
      rfl

end Buffer

/-! ## A file read -/

/-- what reading a file does: the pages of the buffer are exchanged, and only the new ones are written -/
structure Buffered (fs fs' : Uixfs) (k k' : Kern) : Prop where
  held : Held fs' k'
  ok : k'.pmm.Ok
  len : k'.pmm.bitmapLen = k.pmm.bitmapLen
  refs : k'.pmm.refcounts = k.pmm.refcounts
  free : ∀ g, g ∈ k'.pmm.freeSet ↔ (g ∈ k.pmm.freeSet ∨ g ∈ fs.bufPages) ∧ g ∉ fs'.bufPages
  sub : ∀ g ∈ fs'.bufPages, g ∈ k.pmm.freeSet ∨ g ∈ fs.bufPages
  mem : ∀ f, f ∉ fs'.bufPages → k'.mem f = k.mem f
  regs : Kern.SameRegs k k'
  freed : ∃ l, k'.pmm.freed = l ++ k.pmm.freed ∧ ∀ g ∈ l, g ∈ fs.bufPages

section Buffered

variable {fs fs' : Uixfs} {k k' : Kern} {p p' : Pmm} {disk : Disk}

theorem Buffered.refl (h : Held fs k) (hk : k.pmm.Ok) : Buffered fs fs k k where
  held := h
  ok := hk
  len := rfl
  refs := rfl
  free g := ⟨fun hg => ⟨.inl hg, fun hc => h.used g hc hg⟩, fun hg => hg.1.resolve_right hg.2⟩
  sub _ hg := .inr hg
  mem _ _ := rfl
  regs := ⟨rfl, rfl, rfl⟩
  freed := ⟨[], rfl, fun _ hg => absurd hg not_mem_nil⟩

/-- the buffer given back, and none taken -/
theorem Buffered.emptied (G : GivesAll k.pmm fs.bufPages p) (n : ℕ) :
    Buffered fs { fs with fileBuf := none, fileBufPages := n } k (k.setPmm p) where
  held := ⟨fun _ hc => absurd hc.symm (Option.some_ne_none _), fun _ hc => absurd hc not_mem_nil,
    fun _ hc => absurd hc not_mem_nil⟩
  ok := G.ok
  len := G.len
  refs := G.refs
  free g := by
    rw [Kern.setPmm_pmm, G.free, Finset.mem_union, mem_toFinset]
    exact ⟨fun hg => ⟨hg, not_mem_nil⟩, And.left⟩
  sub _ hc := absurd hc not_mem_nil
  mem _ _ := rfl
  regs := ⟨rfl, rfl, rfl⟩
  freed := ⟨fs.bufPages.reverse, G.freed, fun _ hg => mem_reverse.1 hg⟩

/-- a buffer taken and filled, as far as the disk can be read -/
theorem Buffered.filled {size f : ℕ} (B : BufAllocated fs k size p f p') (hbuf : fs'.fileBuf = some (pageAddr f))
    (hpages : fs'.fileBufPages = (size + pageSize - 1) / pageSize) (F : Filled (k.setPmm p') k' (pageAddr f) 0 size) :
    Buffered fs fs' k k' := by
  have hpos := B.some
  have hrun : f ∈ p.freeSet := B.takes.run f le_rfl (by rw [pageSize]; omega)
  have h52 := Pmm.lt_of_free hrun B.gives.ok.small
  have hpmm : k'.pmm = p' := by rw [F.rest]; rfl
  have hnew : fs'.bufPages = range' f ((size + pageSize - 1) / pageSize) := by
    rw [bufPages, hbuf, hpages]
    simp only [Pmm.pageIdx_pageAddr h52]
  have hsub : ∀ g ∈ fs'.bufPages, g ∈ p.freeSet := fun g hg => by
    rw [hnew, mem_range'_1] at hg
    exact B.takes.run g hg.1 hg.2
  have hfree : ∀ g, g ∈ p.freeSet ↔ g ∈ k.pmm.freeSet ∨ g ∈ fs.bufPages := fun g => by
    rw [B.gives.free, Finset.mem_union, mem_toFinset]
  have hfree' : ∀ g, g ∈ k'.pmm.freeSet ↔ g ∈ p.freeSet ∧ g ∉ fs'.bufPages := fun g => by
    rw [hpmm, B.takes.takes.free, Finset.mem_sdiff, mem_toFinset, hnew]
  constructor
  case held =>
    refine ⟨fun pa hpa => ?_, fun j hj => ?_, fun j hj hc => ((hfree' j).1 hc).2 hj⟩
    · rw [hbuf, Option.some.injEq] at hpa
      exact ⟨f, fun h0 => B.gives.ok.zero (h0 ▸ hrun), h52, hpa.symm⟩
    · rw [hpmm, B.takes.takes.len]
      exact (Pmm.mem_freeSet.1 (hsub j hj)).1
  case ok => exact hpmm ▸ B.takes.takes.ok
  case len => rw [hpmm, B.takes.takes.len, B.gives.len]
  case refs => rw [hpmm, B.takes.takes.refs, B.gives.refs]
  case free => exact fun g => by rw [hfree', hfree]
  case sub => exact fun g hg => (hfree g).1 (hsub g hg)
  case mem =>
    intro g hg
    rw [F.pages g fun x h1 h2 hc => hg ?_]
    · rfl
    · rw [toNat_pageAddr h52, pageSize] at h1 h2
      rw [hnew, mem_range'_1, hc, pageSize]
      omega
  case regs =>
    rw [F.rest]
    exact ⟨rfl, rfl, rfl⟩
  case freed =>
    refine ⟨fs.bufPages.reverse, ?_, fun _ hg => mem_reverse.1 hg⟩
    rw [hpmm, B.takes.takes.freed, B.gives.freed]

/-- every sector of entry `i` can be read -/
def Readable (disk : Disk) (fs : Uixfs) (i : ℕ) : Prop :=
  ∀ j, 512 * j < fs.size i → disk ((fs.startLba i + j) % 2 ^ 32) ≠ none

/-- an entry with its file in the buffer, as far as the sectors could be read -/
structure Loaded (disk : Disk) (fs : Uixfs) (i : ℕ) (k : Kern) (r : ℤ) (out : Option PAddr) (fs' : Uixfs) (k' : Kern) :
    Prop where
  pos : 0 < fs.size i
  buffered : Buffered fs fs' k k'
  buf : fs'.fileBuf ≠ none
  pages : fs'.fileBufPages = (fs.size i + pageSize - 1) / pageSize
  result : Readable disk fs i ∧ r = fs.size i ∧ out = fs'.fileBuf ∨ ¬ Readable disk fs i ∧ r = -5 ∧ out = none

/-- **`uixfs_read` of an entry**: no buffer, or the file as far as it can be read. -/
theorem readEntry_cases (h : Held fs k) (hk : k.pmm.Ok) (disk : Disk) (i : ℕ) :
    (∃ p, GivesAll k.pmm fs.bufPages p ∧ (fs.size i = 0 ∨ ∀ f, ¬ p.FreeRun f ((fs.size i + pageSize - 1) / pageSize)) ∧
      readEntry disk i fs k = .ok (-12, none, { fs with fileBuf := none, fileBufPages := 0 }, k.setPmm p)) ∨
    ∃ r out fs' k', readEntry disk i fs k = .ok (r, out, fs', k') ∧ Loaded disk fs i k r out fs' k' := by
  simp only [readEntry]
  rcases fileBufAlloc_spec h hk (fs.size i) with ⟨p, G, hnone, halloc⟩ | ⟨p, f, p', B, halloc⟩
  · rw [halloc]
    exact .inl ⟨p, G, hnone, rfl⟩
  · rw [halloc, ok_bind]
    right
    obtain ⟨fs1, hfs1⟩ : ∃ fs1 : Uixfs, { fs with fileBuf := some (pageAddr f), fileBufPages :=
      (fs.size i + pageSize - 1) / pageSize } = fs1 := ⟨_, rfl⟩
    have hchunks : ∃ b s k', readChunks disk (pageAddr f) (fs.size i) (fs.size i + 1) (fs1.startLba i) 0 fs1
        (k.setPmm p') = .ok (b, { fs1 with sector := s }, k') ∧ Filled (k.setPmm p') k' (pageAddr f) 0 (fs.size i) :=
      readChunks_spec (Nat.lt_succ_of_le (Nat.sub_le _ 0))
    obtain ⟨b, s, k', hrun, F⟩ := hchunks
    have hlba : fs1.startLba i < 2 ^ 32 := load_lt fs1.entries (32 * i + 28) 4
    have hstart : fs1.startLba i = fs.startLba i := by rw [← hfs1]; rfl
    have hread : b = true ↔ Readable disk fs i := by
      rw [readChunks_result hlba hrun, Readable, hstart]
      simp only [Nat.zero_add]
    have hbuf : fs1.fileBuf = some (pageAddr f) := by rw [← hfs1]
    have hpages : fs1.fileBufPages = (fs.size i + pageSize - 1) / pageSize := by rw [← hfs1]
    have hB : Buffered fs { fs1 with sector := s } k k' := .filled B hbuf hpages F
    have hne : fs1.fileBuf ≠ none := by rw [hbuf]; exact Option.some_ne_none _
    simp only [hfs1, hrun, ok_bind]
    cases b with
    | false =>
      have hnot : ¬ Readable disk fs i := fun hc => Bool.false_ne_true (hread.2 hc)
      exact ⟨-5, none, _, k', rfl, B.some, hB, hne, hpages, .inr ⟨hnot, rfl, rfl⟩⟩
    | true =>
      exact ⟨fs.size i, some (pageAddr f), _, k', rfl, B.some, hB, hne, hpages, .inl ⟨hread.1 rfl, rfl, hbuf.symm⟩⟩

/-- **`uixfs_read`** returns, and a result that is not negative comes with the buffer. -/
theorem uixfsRead_spec (h : Held fs k) (hk : k.pmm.Ok) (disk : Disk) (name : List (BitVec 8)) :
    ∃ r buf fs' k', fs.uixfsRead disk name k = .ok (r, buf, fs', k') ∧ Buffered fs fs' k k' ∧
      (0 ≤ r ∧ buf = fs'.fileBuf ∧ buf ≠ none ∨ r < 0 ∧ buf = none) := by
  unfold uixfsRead
  cases fs.mounted with
  | false => exact ⟨-1, none, fs, k, rfl, .refl h hk, .inr ⟨by decide, rfl⟩⟩
  | true =>
    simp only [Bool.not_true, Bool.false_eq_true, if_false]
    cases fs.lookup name with
    | none => exact ⟨-2, none, fs, k, rfl, .refl h hk, .inr ⟨by decide, rfl⟩⟩
    | some i =>
      rcases readEntry_cases h hk disk i with ⟨p, G, -, hrun⟩ | ⟨r, out, fs', k', hrun, L⟩
      · exact ⟨-12, none, _, _, hrun, .emptied G 0, .inr ⟨by decide, rfl⟩⟩
      · refine ⟨r, out, fs', k', hrun, L.buffered, ?_⟩
        rcases L.result with ⟨-, rfl, rfl⟩ | ⟨-, rfl, rfl⟩
        · exact .inl ⟨Int.natCast_nonneg _, rfl, L.buf⟩
        · exact .inr ⟨by decide, rfl⟩

end Buffered

/-! ## Names -/

/-- **A string compares equal to itself only.** -/
theorem strcmp_eq_zero {m : ℕ → BitVec 8} {a : ℕ} {s b : List (BitVec 8)} (hs : 0 ∉ s) (hb : 0 ∉ b)
    (h : ∀ x ≤ s.length, m (a + x) = s.getD x 0) : strcmp m a b = 0 ↔ b = s := by
  induction b generalizing a s with
  | nil =>
    have h0 := h 0 (Nat.zero_le _)
    rw [Nat.add_zero] at h0
    rw [strcmp, h0]
    cases s with
    | nil => simp
    | cons c s =>
      have hc : c ≠ 0 := fun hc => hs (hc ▸ mem_cons_self)
      have hn : c.toNat ≠ 0 := fun hc' => hc (BitVec.eq_of_toNat_eq hc')
      simpa using hn
  | cons d b ih =>
    have h0 := h 0 (Nat.zero_le _)
    rw [Nat.add_zero] at h0
    have hd : d ≠ 0 := fun hc => hb (hc ▸ mem_cons_self)
    rw [strcmp, h0]
    cases s with
    | nil =>
      have hn : d.toNat ≠ 0 := fun hc' => hd (BitVec.eq_of_toNat_eq hc')
      simpa using hn
    | cons c s =>
      have hc : c ≠ 0 := fun hc => hs (hc ▸ mem_cons_self)
      rw [getD_cons_zero]
      by_cases hcd : c = d
      · rw [if_pos ⟨hc, hcd⟩, ih (fun hc' => hs (mem_cons_of_mem _ hc')) (fun hc' => hb (mem_cons_of_mem _ hc')),
          hcd, List.cons.injEq, eq_self_iff_true, true_and]
        intro x hx
        have := h (x + 1) (by simpa using hx)
        rwa [getD_cons_succ, ← Nat.add_assoc, Nat.add_right_comm] at this
      · rw [if_neg fun hc' => hcd hc'.2]
        have hn : (c.toNat : ℤ) - d.toNat ≠ 0 := fun hc' => hcd (BitVec.eq_of_toNat_eq (by omega))
        constructor
        · exact fun h' => absurd h' hn
        · exact fun h' => absurd (cons.inj h').1.symm hcd

theorem memcmp_eq_zero {m : ℕ → BitVec 8} {a : ℕ} {b : List (BitVec 8)} (h : ∀ x < b.length, m (a + x) = b.getD x 0) :
    memcmp m a b = 0 := by
  induction b generalizing a with
  | nil => rfl
  | cons c b ih =>
    have h0 := h 0 (by simp)
    rw [Nat.add_zero, getD_cons_zero] at h0
    rw [memcmp, if_neg (not_not.2 h0)]
    refine ih fun x hx => ?_
    have := h (x + 1) (by simpa using hx)
    rwa [getD_cons_succ, ← Nat.add_assoc, Nat.add_right_comm] at this

/-! ## Mounting -/

section Mount

variable {disk : Disk} {m : ℕ → BitVec 8}

/-- the sector buffer holds what entry `i` is copied from, if it is not read anew -/
def Current (m : ℕ → BitVec 8) (i : ℕ) (fs : Uixfs) : Prop :=
  i * 32 % 512 ≠ 0 → ∀ y < 512, fs.sector y = m (512 * (1 + i * 32 / 512) + y)

/-- entry `i` is copied: the buffer serves the next one too -/
theorem Current.copyEntry {i : ℕ} {fs : Uixfs} (h : ∀ y < 512, fs.sector y = m (512 * (1 + i * 32 / 512) + y)) :
    Current m (i + 1) (fs.copyEntry i (i * 32 % 512)) := by
  intro hi y hy
  rw [show (i + 1) * 32 / 512 = i * 32 / 512 by omega]
  exact h y hy

theorem copyEntry_entries {i : ℕ} {fs : Uixfs} (h : ∀ y < 512, fs.sector y = m (512 * (1 + i * 32 / 512) + y)) {x : ℕ}
    (hx : 32 * i ≤ x) (hx' : x < 32 * i + 32) : (fs.copyEntry i (i * 32 % 512)).entries x = m (512 + x) := by
  simp only [Uixfs.copyEntry]
  rw [if_pos ⟨hx, hx'⟩, h _ (by omega)]
  congr 1
  omega

/-- **The loop of `uixfs_mount`** copies the entries, when their sectors can be read. -/
theorem mountEntries_spec
    (hdisk : ∀ lba, 1 ≤ lba → lba ≤ 2 → ∃ s, disk lba = some s ∧ ∀ y < 512, s y = m (512 * lba + y))
    {n i : ℕ} {fs : Uixfs} (hn : i + n ≤ 32) (hcur : Current m i fs) :
    ∃ fs', mountEntries disk n i fs = (true, fs') ∧ fs'.nfiles = fs.nfiles ∧ fs'.fileBuf = fs.fileBuf ∧
      fs'.fileBufPages = fs.fileBufPages ∧ (∀ x < 32 * i, fs'.entries x = fs.entries x) ∧
      ∀ x, 32 * i ≤ x → x < 32 * (i + n) → fs'.entries x = m (512 + x) := by
  induction n generalizing i fs with
  | zero => exact ⟨fs, rfl, rfl, rfl, rfl, fun _ _ => rfl, fun x h1 h2 => by omega⟩
  | succ n ih =>
    -- whichever way the sector got into the buffer, the entry is copied and the loop goes on
    have hgo : ∀ fs1 : Uixfs, (∀ y < 512, fs1.sector y = m (512 * (1 + i * 32 / 512) + y)) →
        fs1.nfiles = fs.nfiles → fs1.fileBuf = fs.fileBuf → fs1.fileBufPages = fs.fileBufPages →
          fs1.entries = fs.entries →
        ∃ fs', mountEntries disk n (i + 1) (fs1.copyEntry i (i * 32 % 512)) = (true, fs') ∧ fs'.nfiles = fs.nfiles ∧
          fs'.fileBuf = fs.fileBuf ∧ fs'.fileBufPages = fs.fileBufPages ∧ (∀ x < 32 * i, fs'.entries x = fs.entries x) ∧
          ∀ x, 32 * i ≤ x → x < 32 * (i + (n + 1)) → fs'.entries x = m (512 + x) := by
      intro fs1 hsec hnf hb hp he
      obtain ⟨fs', hrun, h1, h2, h3, h4, h5⟩ := ih (i := i + 1) (by omega) (Current.copyEntry hsec)
      refine ⟨fs', hrun, h1.trans hnf, h2.trans hb, h3.trans hp, fun x hx => ?_, fun x hx hx' => ?_⟩
      · rw [h4 x (by omega), ← he]
        exact if_neg (by omega)
      · by_cases hxi : x < 32 * (i + 1)
        · rw [h4 x hxi, copyEntry_entries hsec hx (by omega)]
        · exact h5 x (by omega) (by omega)
    rw [mountEntries]
    by_cases h0 : i * 32 % 512 = 0
    · obtain ⟨s, hs, hbytes⟩ := hdisk (1 + i * 32 / 512) (by omega) (by omega)
      simp only [if_pos h0, hs]
      exact hgo { fs with sector := s } hbytes rfl rfl rfl rfl
    · simp only [if_neg h0]
      exact hgo fs (hcur h0) rfl rfl rfl rfl

end Mount

end Uixfs

end Uix
