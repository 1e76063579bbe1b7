/-
The result buffer of UIXFS over any sequence of calls, and what the results of `uixfs_read` mean.

The buffer is given back at the start of the next read, is kept when a sector cannot be read, and is dropped when there
is no room for the next one. Between two calls the rest of the kernel uses the page allocator, so any allocation may
fail.

- `Buffered.count`: pages go from the free pages to the buffer and back.
- `Balanced.step`: every call keeps the invariant and the number of pages.
- `file_buffer_balanced`: the invariant over runs; no call stops, so `pmm_free` never panics.
- `strcmp_zero_iff`: `strcmp` finds the string at an address.
- `cause_iff`: `uixfs_read` reports the true cause, unless the file found is empty or its name has no NUL in its field.
  `empty_file_enomem` is an empty file that is reported as a lack of memory.
-/
import Uix.Fs.UixfsSpec
import Uix.Lib.Cstring

namespace Uix

open Machine Bytes Cstring List
open Pmm (pageIdx pageAddr)

namespace Uixfs

/-! ## Calls -/

/-- what happens between two states: a call, or work of the rest of the kernel -/
inductive Call where
  | read (disk : Disk) (name : List (BitVec 8))
  | release
  | other

/-- a step: the calls as they are, and any work elsewhere that leaves the pages of the buffer in use -/
inductive Step : Uixfs × Kern → Call → Uixfs × Kern → Prop where
  | read {fs fs' : Uixfs} {k k' : Kern} {disk : Disk} {name : List (BitVec 8)} {r : ℤ} {out : Option PAddr} :
    fs.uixfsRead disk name k = .ok (r, out, fs', k') → Step (fs, k) (.read disk name) (fs', k')
  | release {fs fs' : Uixfs} {k k' : Kern} : fs.fileBufFree k = .ok (fs', k') → Step (fs, k) .release (fs', k')
  | other {fs : Uixfs} {k k' : Kern} : k'.pmm.Ok →
    (∀ j ∈ fs.bufPages, j < k'.pmm.bitmapLen ∧ j ∉ k'.pmm.freeSet) → Step (fs, k) .other (fs, k')

/-- **The invariant.** The buffer is made of pages in use, and there is none exactly if it has no pages. -/
structure Balanced (fs : Uixfs) (k : Kern) : Prop where
  ok : k.pmm.Ok
  held : Held fs k
  null : fs.fileBuf = none ↔ fs.fileBufPages = 0

/-- free pages and pages of the buffer -/
def pagesOf (fs : Uixfs) (k : Kern) : ℕ := k.pmm.freeCount + fs.fileBufPages

section Run

variable {fs fs' : Uixfs} {k k' : Kern}

theorem Balanced.length (h : Balanced fs k) : fs.bufPages.length = fs.fileBufPages := by
  unfold bufPages
  cases hb : fs.fileBuf with
  | none => exact (h.null.1 hb).symm
  | some pa => exact length_range'

theorem bufPages_nodup (fs : Uixfs) : fs.bufPages.Nodup := by
  unfold bufPages
  cases fs.fileBuf with
  | none => exact nodup_nil
  | some pa => exact nodup_range'

/-- **Pages go to the buffer and come back**; none is lost. -/
theorem Buffered.count (B : Buffered fs fs' k k') (h : Held fs k) :
    k'.pmm.freeSet.card + fs'.bufPages.length = k.pmm.freeSet.card + fs.bufPages.length := by
  have hfree : k'.pmm.freeSet = (k.pmm.freeSet ∪ fs.bufPages.toFinset) \ fs'.bufPages.toFinset := by
    ext g
    rw [B.free, Finset.mem_sdiff, Finset.mem_union, mem_toFinset, mem_toFinset]
  have hsub : fs'.bufPages.toFinset ⊆ k.pmm.freeSet ∪ fs.bufPages.toFinset := by
    intro g hg
    rw [Finset.mem_union, mem_toFinset]
    exact B.sub g (mem_toFinset.1 hg)
  have hdisj : Disjoint k.pmm.freeSet fs.bufPages.toFinset := by
    rw [Finset.disjoint_right]
    intro g hg
    exact h.used g (mem_toFinset.1 hg)
  have hcard := Finset.card_sdiff_add_card_eq_card hsub
  rw [← hfree, Finset.card_union_of_disjoint hdisj, toFinset_card_of_nodup (bufPages_nodup fs),
    toFinset_card_of_nodup (bufPages_nodup fs')] at hcard
  exact hcard

/-- the new state of a call that exchanges the buffer -/
theorem Balanced.exchange (h : Balanced fs k) (B : Buffered fs fs' k k')
    (hnull : fs'.fileBuf = none ↔ fs'.fileBufPages = 0) : Balanced fs' k' ∧ pagesOf fs' k' = pagesOf fs k := by
  have h' : Balanced fs' k' := ⟨B.ok, B.held, hnull⟩
  refine ⟨h', ?_⟩
  rw [pagesOf, pagesOf, h.ok.count, B.ok.count, ← h.length, ← h'.length]
  exact B.count h.held

/-- **A read** keeps the invariant. -/
theorem Balanced.read (h : Balanced fs k) (disk : Disk) (name : List (BitVec 8)) :
    ∃ r out fs' k', fs.uixfsRead disk name k = .ok (r, out, fs', k') ∧ Balanced fs' k' ∧
    pagesOf fs' k' = pagesOf fs k := by
  unfold uixfsRead
  cases fs.mounted with
  | false => exact ⟨-1, none, fs, k, rfl, h, rfl⟩
  | true =>
    simp only [Bool.not_true, Bool.false_eq_true, if_false]
    cases fs.lookup name with
    | none => exact ⟨-2, none, fs, k, rfl, h, rfl⟩
    | some i =>
      rcases readEntry_cases h.held h.ok disk i with ⟨p, G, -, hrun⟩ | ⟨r, out, fs', k', hrun, L⟩
      · exact ⟨-12, none, _, _, hrun, h.exchange (.emptied G 0) ⟨fun _ => rfl, fun _ => rfl⟩⟩
      · have hpages : fs'.fileBufPages ≠ 0 := by
          have hpos := L.pos
          rw [L.pages, pageSize]
          omega
        exact ⟨r, out, fs', k', hrun, h.exchange L.buffered ⟨fun hc => absurd hc L.buf, fun hc => absurd hc hpages⟩⟩

/-- **A release** keeps the invariant. -/
theorem Balanced.release (h : Balanced fs k) :
    ∃ fs' k', fs.fileBufFree k = .ok (fs', k') ∧ Balanced fs' k' ∧ pagesOf fs' k' = pagesOf fs k := by
  obtain ⟨p, n, hrun, G⟩ := fileBufFree_spec h.held h.ok
  cases hb : fs.fileBuf with
  | none =>
    refine ⟨fs, k, ?_, h, rfl⟩
    rw [fileBufFree, hb]
    rfl
  | some pa =>
    have hn : n = 0 := by
      rw [fileBufFree, hb] at hrun
      obtain ⟨k', -, hk'⟩ := bind_ok.1 hrun
      rw [pure_eq_ok, Except.ok.injEq, Prod.mk.injEq, Uixfs.mk.injEq] at hk'
      exact hk'.1.2.2.2.2.2.symm
    subst hn
    exact ⟨_, _, hrun, h.exchange (.emptied G 0) ⟨fun _ => rfl, fun _ => rfl⟩⟩

/-- **One step** keeps the invariant. -/
theorem Balanced.step {s t : Uixfs × Kern} {c : Call} (h : Balanced s.1 s.2) (hstep : Step s c t) :
    Balanced t.1 t.2 := by
  cases hstep with
  | @read fs fs' k k' disk name r out hrun =>
    obtain ⟨r', out', fs'', k'', hrun', hb, -⟩ := h.read disk name
    rw [hrun, Except.ok.injEq, Prod.mk.injEq, Prod.mk.injEq, Prod.mk.injEq] at hrun'
    obtain ⟨-, -, rfl, rfl⟩ := hrun'
    exact hb
  | @release fs fs' k k' hrun =>
    obtain ⟨fs'', k'', hrun', hb, -⟩ := h.release
    rw [hrun, Except.ok.injEq, Prod.mk.injEq] at hrun'
    obtain ⟨rfl, rfl⟩ := hrun'
    exact hb
  | other hok hpages => exact ⟨hok, ⟨h.held.addr, fun j hj => (hpages j hj).1, fun j hj => (hpages j hj).2⟩, h.null⟩

/-- the state after mounting: no file has been read -/
structure Fresh (fs : Uixfs) (k : Kern) : Prop where
  mounted : fs.mounted = true
  ok : k.pmm.Ok
  buf : fs.fileBuf = none
  pages : fs.fileBufPages = 0

theorem Fresh.balanced (h : Fresh fs k) : Balanced fs k := by
  have hnil : fs.bufPages = [] := by rw [bufPages, h.buf]
  refine ⟨h.ok, ⟨fun pa hpa => ?_, fun j hj => ?_, fun j hj => ?_⟩, fun _ => h.pages, fun _ => h.buf⟩
  · rw [h.buf] at hpa
    cases hpa
  · exact absurd hj (hnil ▸ not_mem_nil)
  · exact absurd hj (hnil ▸ not_mem_nil)

/-- what holds of the buffer in a state, and of the calls made in it -/
structure Sound (fs : Uixfs) (k : Kern) : Prop where
  null : fs.fileBuf = none ↔ fs.fileBufPages = 0
  used : ∀ pa, fs.fileBuf = some pa → pa = pageAddr (pageIdx pa) ∧ ∀ i < fs.fileBufPages,
    pageIdx pa + i < k.pmm.bitmapLen ∧ pageIdx pa + i ∉ k.pmm.freeSet
  read : ∀ disk name, ∃ r out fs' k', fs.uixfsRead disk name k = .ok (r, out, fs', k') ∧
    k'.pmm.freeCount + fs'.fileBufPages = k.pmm.freeCount + fs.fileBufPages
  release : ∃ fs' k', fs.fileBufFree k = .ok (fs', k') ∧
    k'.pmm.freeCount + fs'.fileBufPages = k.pmm.freeCount + fs.fileBufPages

theorem Balanced.sound (h : Balanced fs k) : Sound fs k where
  null := h.null
  used pa hpa := by
    obtain ⟨f, -, h52, rfl⟩ := h.held.addr pa hpa
    have hidx : pageIdx (pageAddr f) = f := Pmm.pageIdx_pageAddr h52
    refine ⟨by rw [hidx], fun i hi => ?_⟩
    have hmem : pageIdx (pageAddr f) + i ∈ fs.bufPages := by
      rw [bufPages, hpa]
      exact mem_range'_1.2 ⟨Nat.le_add_right _ _, Nat.add_lt_add_left hi _⟩
    exact ⟨h.held.inside _ hmem, h.held.used _ hmem⟩
  read disk name := by
    obtain ⟨r, out, fs', k', hrun, -, hcount⟩ := h.read disk name
    exact ⟨r, out, fs', k', hrun, hcount⟩
  release := by
    obtain ⟨fs', k', hrun, -, hcount⟩ := h.release
    exact ⟨fs', k', hrun, hcount⟩

end Run

/-- **The file buffer neither leaks nor frees twice**, after any sequence of calls. -/
theorem file_buffer_balanced {fs fs' : Uixfs} {k k' : Kern} {calls : List Call} (h : Fresh fs k)
    (hrun : Steps Step (fs, k) calls (fs', k')) : Sound fs' k' := by
  have hb := Steps.inv (P := fun s : Uixfs × Kern => Balanced s.1 s.2) (fun _ _ _ hs hstep => hs.step hstep) h.balanced
    hrun
  exact hb.sound

/-- 62 free pages -/
def fewPages : Kern := ⟨fun _ _ => 0, Pmm.fresh 64 2 none, 1, pageAddr 1, pageAddr 1⟩

/-- a directory with a file "a" of fewer than 256 bytes -/
def oneEntry (size : BitVec 8) : Uixfs where
  entries x := if x = 0 then 0x61 else if x = 24 then size else 0
  nfiles := 1
  mounted := true
  sector _ := 0
  fileBuf := none
  fileBufPages := 0

theorem fresh_oneEntry (size : BitVec 8) : Fresh (oneEntry size) fewPages :=
  ⟨rfl, Pmm.fresh_ok _ (by decide) (by decide) (by decide) (by decide), rfl, rfl⟩

/-- a read and a release -/
theorem read_release_balanced : ∃ fs k,
    Steps Step (oneEntry 5, fewPages) [.read (fun _ => none) [0x61], .release] (fs, k) ∧ Sound fs k := by
  have hfresh := fresh_oneEntry 5
  obtain ⟨r, out, fs₁, k₁, hread, hb, -⟩ := hfresh.balanced.read (fun _ => none) [0x61]
  obtain ⟨fs₂, k₂, hrelease, -, -⟩ := hb.release
  have hrun : Steps Step (oneEntry 5, fewPages) [.read (fun _ => none) [0x61], .release] (fs₂, k₂) :=
    .cons (.read hread) (.cons (.release hrelease) (.nil _))
  exact ⟨fs₂, k₂, hrun, file_buffer_balanced hfresh hrun⟩

/-! ## Causes -/

/-- the name field of entry `i` holds the name and its NUL -/
def HasName (fs : Uixfs) (i : ℕ) (name : List (BitVec 8)) : Prop :=
  name.length < 24 ∧ StringAt fs.entries (32 * i) name

/-- the entry of a name -/
structure IsEntry (fs : Uixfs) (name : List (BitVec 8)) (i : ℕ) : Prop where
  lt : i < fs.nfiles
  named : HasName fs i name
  first : ∀ j < i, ¬ HasName fs j name

/-- the result says what happened -/
structure TrueCause (disk : Disk) (name : List (BitVec 8)) (fs : Uixfs) (k : Kern) (r : ℤ) (out : Option PAddr)
    (fs' : Uixfs) : Prop where
  notFound : r = -2 ↔ ∀ i < fs.nfiles, ¬ HasName fs i name
  noMemory : r = -12 → ∃ i, IsEntry fs name i ∧ ∀ fs₀ k₀, fs.fileBufFree k = .ok (fs₀, k₀) →
    ∀ f, ¬ k₀.pmm.FreeRun f ((fs.size i + pageSize - 1) / pageSize)
  ioError : r = -5 → ∃ i, IsEntry fs name i ∧ ¬ Readable disk fs i
  success : r ≠ -2 → r ≠ -12 → r ≠ -5 → ∃ i, IsEntry fs name i ∧ r = fs.size i ∧ out = fs'.fileBuf ∧ out ≠ none

/-- `uixfs_read` returns and reports the true cause -/
def Reports (disk : Disk) (name : List (BitVec 8)) (fs : Uixfs) (k : Kern) : Prop :=
  ∃ r out fs' k', fs.uixfsRead disk name k = .ok (r, out, fs', k') ∧ TrueCause disk name fs k r out fs'

section Cause

variable {fs : Uixfs} {k : Kern} {disk : Disk} {name : List (BitVec 8)} {i : ℕ}

/-- **`strcmp`** gives 0 for the string at the address. -/
theorem strcmp_zero_iff {m : ℕ → BitVec 8} {a : ℕ} {s : List (BitVec 8)} (hs : 0 ∉ s) :
    strcmp m a s = 0 ↔ StringAt m a s := by
  induction s generalizing a with
  | nil =>
    have hzero : (m a).toNat = 0 ↔ m a = 0 := @BitVec.toNat_inj 8 (m a) 0
    rw [strcmp, Int.natCast_eq_zero, hzero]
    constructor
    · intro h0
      refine ⟨fun i hi => ?_, hs⟩
      obtain rfl : i = 0 := Nat.le_zero.1 hi
      exact h0
    · exact StringAt.nul
  | cons c s ih =>
    have hc : c ≠ 0 := fun h0 => hs (h0 ▸ mem_cons_self)
    have hs' : 0 ∉ s := fun h0 => hs (mem_cons_of_mem _ h0)
    rw [strcmp]
    by_cases heq : m a = c
    · rw [if_pos ⟨heq ▸ hc, heq⟩, ih hs']
      refine ⟨fun h => ⟨fun i hi => ?_, hs⟩, StringAt.tail⟩
      cases i with
      | zero => exact heq
      | succ i =>
        rw [← Nat.add_assoc, Nat.add_right_comm]
        exact h.bytes i (Nat.le_of_succ_le_succ hi)
    · have hne : (m a).toNat ≠ c.toNat := fun h => heq (BitVec.eq_of_toNat_eq h)
      rw [if_neg fun h => heq h.2]
      exact ⟨fun h => absurd h (by omega), fun h => absurd (h.bytes 0 (Nat.zero_le _)) heq⟩

theorem hasName_iff (hname : 0 ∉ name) (hlen : name.length < 24) :
    HasName fs i name ↔ strcmp fs.entries (32 * i) name = 0 := by
  rw [HasName, strcmp_zero_iff hname]
  exact and_iff_right hlen

theorem lookup_eq_some : fs.lookup name = some i ↔ strcmp fs.entries (32 * i) name = 0 ∧ i < fs.nfiles ∧
    ∀ j < i, strcmp fs.entries (32 * j) name ≠ 0 := by
  rw [lookup, find?_range_eq_some]
  simp

/-- a short name that is found belongs to the entry found -/
theorem isEntry_of_lookup (hname : 0 ∉ name) (hlen : name.length < 24) (h : fs.lookup name = some i) :
    IsEntry fs name i := by
  obtain ⟨hcmp, hlt, hfirst⟩ := lookup_eq_some.1 h
  exact ⟨hlt, (hasName_iff hname hlen).2 hcmp, fun j hj hc => hfirst j hj ((hasName_iff hname hlen).1 hc)⟩

theorem IsEntry.unique {j : ℕ} (h : IsEntry fs name i) (h' : IsEntry fs name j) : i = j := by
  rcases Nat.lt_trichotomy i j with hlt | heq | hgt
  · exact absurd h.named (h'.first i hlt)
  · exact heq
  · exact absurd h'.named (h.first j hgt)

/-- a name that is not found belongs to no entry -/
theorem not_hasName_of_lookup (hname : 0 ∉ name) (h : fs.lookup name = none) :
    ∀ i < fs.nfiles, ¬ HasName fs i name := by
  intro i hi hc
  have hcmp := find?_eq_none.1 h i (mem_range.2 hi)
  exact hcmp (decide_eq_true ((strcmp_zero_iff hname).2 hc.2))

theorem uixfsRead_none (hm : fs.mounted = true) (hlook : fs.lookup name = none) :
    fs.uixfsRead disk name k = .ok (-2, none, fs, k) := by
  unfold uixfsRead
  rw [hm, hlook]
  rfl

theorem uixfsRead_some (hm : fs.mounted = true) (hlook : fs.lookup name = some i) :
    fs.uixfsRead disk name k = readEntry disk i fs k := by
  unfold uixfsRead
  rw [hm, hlook]
  rfl

/-- the pages free after a release, whoever makes it -/
theorem GivesAll.freeRun {p : Pmm} {fs₀ : Uixfs} {k₀ : Kern} (G : GivesAll k.pmm fs.bufPages p) (h : Held fs k)
    (hk : k.pmm.Ok) (hrun : fs.fileBufFree k = .ok (fs₀, k₀)) (f n : ℕ) : k₀.pmm.FreeRun f n ↔ p.FreeRun f n := by
  obtain ⟨q, m, hfree, G'⟩ := fileBufFree_spec h hk
  rw [hfree, Except.ok.injEq, Prod.mk.injEq] at hrun
  rw [← hrun.2, Pmm.FreeRun, Pmm.FreeRun, Kern.setPmm_pmm, G'.free, G.free]

/-- a file that is not empty, found by a short name -/
theorem reports_entry (hm : fs.mounted = true) (h : Held fs k) (hk : k.pmm.Ok) (hlook : fs.lookup name = some i)
    (hentry : IsEntry fs name i) (hsize : fs.size i ≠ 0) : Reports disk name fs k := by
  have hfound : ¬ ∀ j < fs.nfiles, ¬ HasName fs j name := fun hc => hc i hentry.lt hentry.named
  have hread : fs.uixfsRead disk name k = readEntry disk i fs k := uixfsRead_some hm hlook
  rcases readEntry_cases h hk disk i with ⟨p, G, hnone, hrun⟩ | ⟨r, out, fs', k', hrun, L⟩
  · refine ⟨-12, none, _, _, hread.trans hrun, ?_⟩
    refine ⟨⟨fun hc => absurd hc (by decide), fun hc => absurd hc hfound⟩, fun _ => ⟨i, hentry, ?_⟩,
      fun hc => absurd hc (by decide), fun _ hc => absurd rfl hc⟩
    intro fs₀ k₀ hfree f hf
    exact (hnone.resolve_left hsize) f ((G.freeRun h hk hfree f _).1 hf)
  · refine ⟨r, out, fs', k', hread.trans hrun, ?_⟩
    rcases L.result with ⟨hreadable, rfl, rfl⟩ | ⟨hbad, rfl, rfl⟩
    · refine ⟨⟨fun hc => by omega, fun hc => absurd hc hfound⟩, fun hc => by omega, fun hc => by omega, fun _ _ _ => ?_⟩
      exact ⟨i, hentry, rfl, rfl, L.buf⟩
    · exact ⟨⟨fun hc => absurd hc (by decide), fun hc => absurd hc hfound⟩, fun hc => absurd hc (by decide),
        fun _ => ⟨i, hentry, hbad⟩, fun _ _ hc => absurd rfl hc⟩

/-- **When `uixfs_read` reports the true cause**: the file that it finds is not empty, and its name is shorter than the
name field. -/
theorem cause_iff (hm : fs.mounted = true) (h : Held fs k) (hk : k.pmm.Ok) (hname : 0 ∉ name) (disk : Disk) :
    Reports disk name fs k ↔ ∀ i, fs.lookup name = some i → fs.size i ≠ 0 ∧ name.length < 24 := by
  constructor
  · rintro ⟨r, out, fs', k', hread, hcause⟩ i hlook
    rw [uixfsRead_some hm hlook] at hread
    -- something is found, so an entry has the name
    have hne : r ≠ -2 := by
      rcases readEntry_cases h hk disk i with ⟨p, G, hnone, hrun⟩ | ⟨r', out', fs'', k'', hrun, L⟩
      · rw [hread, Except.ok.injEq, Prod.mk.injEq] at hrun
        omega
      · rw [hread, Except.ok.injEq, Prod.mk.injEq] at hrun
        rcases L.result with ⟨-, hr, -⟩ | ⟨-, hr, -⟩ <;> omega
    have hlen : name.length < 24 := by
      by_contra hlong
      exact hne (hcause.notFound.2 fun j _ hj => hlong hj.1)
    refine ⟨fun hzero => ?_, hlen⟩
    have hentry := isEntry_of_lookup hname hlen hlook
    rcases readEntry_cases h hk disk i with ⟨p, G, hnone, hrun⟩ | ⟨r', out', fs'', k'', hrun, L⟩
    · -- no page is needed for an empty file
      rw [hread, Except.ok.injEq, Prod.mk.injEq] at hrun
      obtain ⟨j, hj, hfree⟩ := hcause.noMemory hrun.1
      obtain ⟨q, m, hrelease, -⟩ := fileBufFree_spec h hk
      refine hfree _ _ hrelease 0 fun g h1 h2 => ?_
      rw [hj.unique hentry, hzero, pageSize] at h2
      omega
    · exact absurd hzero L.pos.ne'
  · intro hgood
    cases hlook : fs.lookup name with
    | none =>
      have hnone := not_hasName_of_lookup hname hlook
      refine ⟨-2, none, fs, k, uixfsRead_none hm hlook, ?_⟩
      exact ⟨⟨fun _ => hnone, fun _ => rfl⟩, fun hc => absurd hc (by decide), fun hc => absurd hc (by decide),
        fun hc => absurd rfl hc⟩
    | some i =>
      obtain ⟨hsize, hlen⟩ := hgood i hlook
      exact reports_entry hm h hk hlook (isEntry_of_lookup hname hlen hlook) hsize

/-- **An empty file**: there is memory, and the result says that there is none. -/
theorem empty_file_enomem :
    (∃ out fs' k', (oneEntry 0).uixfsRead (fun _ => none) [0x61] fewPages = .ok (-12, out, fs', k')) ∧
    ¬ Reports (fun _ => none) [0x61] (oneEntry 0) fewPages := by
  have hb := (fresh_oneEntry 0).balanced
  have hlook : (oneEntry 0).lookup [0x61] = some 0 := by decide
  have hsize : (oneEntry 0).size 0 = 0 := by decide
  have hentry : IsEntry (oneEntry 0) [0x61] 0 := isEntry_of_lookup (by decide) (by decide) hlook
  obtain ⟨p, hrun⟩ : ∃ p, (oneEntry 0).uixfsRead (fun _ => none) [0x61] fewPages =
      .ok (-12, none, { oneEntry 0 with fileBuf := none, fileBufPages := 0 }, fewPages.setPmm p) := by
    rw [uixfsRead_some rfl hlook]
    rcases readEntry_cases hb.held hb.ok (fun _ => none) 0 with ⟨p, -, -, hrun⟩ | ⟨r, out, fs', k', -, L⟩
    · exact ⟨p, hrun⟩
    · exact absurd hsize L.pos.ne'
  refine ⟨⟨_, _, _, hrun⟩, ?_⟩
  rintro ⟨r, out, fs', k', hread, hcause⟩
  rw [hrun, Except.ok.injEq, Prod.mk.injEq] at hread
  obtain ⟨j, hj, hfree⟩ := hcause.noMemory hread.1.symm
  obtain ⟨q, m, hrelease, -⟩ := fileBufFree_spec hb.held hb.ok
  refine hfree _ _ hrelease 0 fun g h1 h2 => ?_
  rw [hj.unique hentry, hsize, pageSize] at h2
  omega

/-- a file of five bytes on a disk that cannot be read -/
theorem five_bytes_reported : Reports (fun _ => none) [0x61] (oneEntry 5) fewPages := by
  have hb := (fresh_oneEntry 5).balanced
  refine (cause_iff rfl hb.held hb.ok (by decide) _).2 fun i hi => ?_
  have hlook : (oneEntry 5).lookup [0x61] = some 0 := by decide
  rw [hlook, Option.some.injEq] at hi
  subst hi
  decide

end Cause

end Uixfs

end Uix
