/-
What `elf_load` touches. It takes the addresses of a segment as they stand in the file: a segment of the kernel half is
loaded into the tables that all address spaces share.

- `copyIn_spec`: a copy into the user half stays there, since the addresses above it are not canonical.
- `loadSegments_targets`: a load that returns is a loop over the pages of the segments.
- `elfLoad_filling`: a load whose segments lie in the user half only fills the space.
-/
import Uix.Cpu.Elf
import Uix.Memory.Filling
import Uix.Memory.KernelHalf

namespace Uix

open Machine Radix Radix.Format List Kern
open Pmm (pageIdx pageAddr Takes)

theorem pageFlags_user : UserFlags pageFlags := by decide

theorem pageFlags_write : has pageFlags writeBit = true := by decide

/-- nothing was freed that must not be: the one reason to stop that is a matter of the allocator's bookkeeping -/
def NotFree (st : Stop) : Prop := st ≠ .panic .pmmDoubleFree

/-- an exception that the kernel does not handle: its own read or write failed -/
def Unhandled (st : Stop) : Prop := st = .panic .unhandled

theorem Machine.Meets.notFree {α : Type} {x : Except Stop α} {Q : α → Prop} (h : Meets x Unhandled Q) :
    Meets x NotFree Q := by
  refine h.mono (fun st hst => ?_) fun _ hq => hq
  rw [hst]
  exact fun hc => by cases hc

theorem MapStop.notFree {k : Kern} {va : U64} {st : Stop} (h : MapStop k va st) : NotFree st := by
  rcases h with ⟨rfl | rfl, -⟩ | ⟨rfl | rfl, -⟩ <;> exact fun hc => by cases hc

theorem addr_zero (a : U64) : a + BitVec.ofNat 64 0 = a := BitVec.add_zero a

theorem addr_succ (a : U64) (j : ℕ) : a + BitVec.ofNat 64 (j + 1) = a + 1 + BitVec.ofNat 64 j := by
  rw [BitVec.ofNat_add, BitVec.add_comm (BitVec.ofNat 64 j), ← BitVec.add_assoc]
  rfl

namespace Image

/-- the images have the same bytes up to their common end -/
structure Same (img img' : Image) : Prop where
  len : img'.len = img.len
  get : ∀ off, off < img.len → img'.get off = img.get off

theorem Same.gets {img img' : Image} (h : img.Same img') {n : ℕ} {off : U64} (hoff : off.toNat + n ≤ img.len.toNat) :
    ∀ j < n, img'.get (off + BitVec.ofNat 64 j) = img.get (off + BitVec.ofNat 64 j) := fun j hj => by
  have hlt := img.len.isLt
  refine h.get _ (BitVec.lt_def.2 ?_)
  rw [BitVec.toNat_add, BitVec.toNat_ofNat]
  omega

variable {img : Image} {k₀ k : Kern} {S : Finset ℕ}

theorem get_meets (img : Image) (off : U64) : Meets (img.get off) Unhandled fun _ => True := by
  unfold get
  cases img.byte off with
  | none => exact meets_error rfl
  | some b => exact meets_ok trivial

theorem field_meets (img : Image) (n : ℕ) (off : U64) : Meets (img.field n off) Unhandled fun _ => True := by
  induction n generalizing off with
  | zero => exact meets_ok trivial
  | succ n ih => exact (img.get_meets off).bind fun b _ => (ih _).bind fun r _ => meets_ok trivial

/-- **A copy into the user half** ends at its upper end at the latest. -/
theorem copyIn_spec {n : ℕ} {va off : U64} (F : Filling k₀ k S) (hcr3 : frame k₀.cr3 = k₀.pml4)
    (hva : va.toNat ≤ 2 ^ 47) :
    Meets (img.copyIn n va off k) Unhandled fun k' => Filling k₀ k' S ∧ va.toNat + n ≤ 2 ^ 47 := by
  induction n generalizing va off k with
  | zero => exact meets_ok ⟨F, hva⟩
  | succ n ih =>
    refine (img.get_meets off).bind fun b _ => ?_
    by_cases hend : va.toNat = 2 ^ 47
    · -- the first address that is not canonical
      have hcan : ¬ Canonical va := by
        rintro (h | h) <;> omega
      rw [write, if_pos hcan]
      exact meets_error rfl
    · obtain ⟨hlt, hnext⟩ := user_next (v := va) (by omega)
      refine (@Kern.Filling.write_spec k₀ k S ⟨va, hlt⟩ false b F hcr3).bind ?_
      rintro k' ⟨F', -⟩
      refine (ih F' (by omega)).mono (fun _ h => h) ?_
      rintro k'' ⟨F'', hsum⟩
      exact ⟨F'', by omega⟩

end Image

namespace Elf

/-! ## Pages of a segment -/

section Pages

variable {ph : Phdr}

/-- an address rounded down by a mask -/
theorem toNat_and_mask {n : ℕ} {mask : U64} (hmask : ∀ i < 64, mask.getLsbD i = decide (n ≤ i)) (va : U64) :
    (va &&& mask).toNat = va.toNat / 2 ^ n * 2 ^ n := by
  have h : va &&& mask = (va >>> n) <<< n := by
    apply BitVec.eq_of_getLsbD_eq
    intro i hi
    rw [BitVec.getLsbD_and, hmask i hi, BitVec.getLsbD_shiftLeft, BitVec.getLsbD_ushiftRight]
    by_cases hn : n ≤ i
    · simp [hn, hi, Nat.not_lt.2 hn]
    · simp [hn, Nat.lt_of_not_le hn]
  have hlt : va.toNat / 2 ^ n * 2 ^ n < 2 ^ 64 := lt_of_le_of_lt (Nat.div_mul_le_self _ _) va.isLt
  rw [h, BitVec.toNat_shiftLeft, BitVec.toNat_ushiftRight, Nat.shiftLeft_eq, Nat.shiftRight_eq_div_pow,
    Nat.mod_eq_of_lt hlt]

theorem toNat_align (va : U64) : (va &&& ~~~ 0xFFF#64).toNat = va.toNat / pageSize * pageSize :=
  toNat_and_mask (n := 12) (by decide) va

theorem start_dvd (ph : Phdr) : ∃ a, ph.start.toNat = a * pageSize := ⟨_, toNat_align _⟩

theorem stop_dvd (ph : Phdr) : ∃ a, ph.stop.toNat = a * pageSize := ⟨_, toNat_align _⟩

/-- the pages of a segment are those from its start to its end -/
theorem mem_pages {va : U64} : va ∈ ph.pages ↔
    ∃ n, va.toNat = ph.start.toNat + n * pageSize ∧ va.toNat < ph.stop.toNat := by
  obtain ⟨a, ha⟩ := start_dvd ph
  obtain ⟨c, hc⟩ := stop_dvd ph
  have hstop := ph.stop.isLt
  simp only [Phdr.pages, mem_map, mem_range, pageSize] at ha hc ⊢
  constructor
  · rintro ⟨n, hn, rfl⟩
    have hsum : (ph.start + BitVec.ofNat 64 (n * 4096)).toNat = ph.start.toNat + n * 4096 := by
      rw [BitVec.toNat_add, BitVec.toNat_ofNat]
      omega
    exact ⟨n, hsum, by omega⟩
  · rintro ⟨n, hn, hlt⟩
    refine ⟨n, by omega, BitVec.eq_of_toNat_eq ?_⟩
    rw [BitVec.toNat_add, BitVec.toNat_ofNat]
    omega

/-- the pages lie in the user half -/
def Phdr.User (ph : Phdr) : Prop := ph.start < ph.stop → ph.stop ≤ userEnd

theorem Phdr.User.page (h : ph.User) {va : U64} (hva : va ∈ ph.pages) : va < userEnd := by
  obtain ⟨n, hn, hlt⟩ := mem_pages.1 hva
  have hle := BitVec.le_def.1 (h (BitVec.lt_def.2 (by omega)))
  exact BitVec.lt_def.2 (by omega)

/-- a segment that leaves the user half has a page outside -/
theorem Phdr.exists_page (h : ¬ ph.User) : ∃ va ∈ ph.pages, ¬ va < userEnd := by
  simp only [Phdr.User, Classical.not_imp, BitVec.not_le] at h
  obtain ⟨a, ha⟩ := start_dvd ph
  obtain ⟨c, hc⟩ := stop_dvd ph
  have h1 := BitVec.lt_def.1 h.1
  have h2 := BitVec.lt_def.1 h.2
  have hstop := ph.stop.isLt
  rw [show userEnd.toNat = 2 ^ 47 from rfl] at h2
  simp only [pageSize] at ha hc
  have hlast : (BitVec.ofNat 64 (ph.stop.toNat - 4096)).toNat = ph.stop.toNat - 4096 := by
    rw [BitVec.toNat_ofNat]
    omega
  refine ⟨BitVec.ofNat 64 (ph.stop.toNat - 4096), mem_pages.2 ⟨c - a - 1, ?_, ?_⟩, ?_⟩
  · rw [hlast, pageSize]
    omega
  · omega
  · rw [BitVec.lt_def, hlast, show userEnd.toNat = 2 ^ 47 from rfl]
    omega

end Pages

/-! ## What a load touches -/

/-- the segments of an accepted image lie in the user half -/
def UserSegments (img : Image) : Prop :=
  ∀ eh, header img = .ok (some eh) → ∀ i < eh.phnum, ∀ ph, segment img eh i = .ok (some ph) → ph.User

section Touched

variable {img : Image} {ph : Phdr} {eh : Ehdr} {s t : Load}

/-- the log only grows, and a page that was loaded is in it -/
theorem loadPage_touched {va : U64} {done : Bool} (h : loadPage img ph va s = .ok (done, t)) :
    (∀ a ∈ s.touched, a ∈ t.touched) ∧ (done = true → va ∈ t.touched) := by
  obtain ⟨⟨pg, k⟩, -, h⟩ := bind_ok.1 h
  simp only at h
  split_ifs at h with h0 hcopy
  · rw [pure_ok, Prod.mk.injEq] at h
    rw [← h.1, ← h.2]
    exact ⟨fun a ha => ha, fun hc => absurd hc (by decide)⟩
  · obtain ⟨k1, -, h⟩ := bind_ok.1 h
    obtain ⟨k2, -, h⟩ := bind_ok.1 h
    rw [pure_ok, Prod.mk.injEq] at h
    rw [← h.2]
    refine ⟨fun a ha => mem_append_right _ (mem_cons_of_mem _ ha), fun _ => ?_⟩
    exact mem_append_right _ mem_cons_self
  · obtain ⟨k1, -, h⟩ := bind_ok.1 h
    rw [pure_ok, Prod.mk.injEq] at h
    rw [← h.2]
    exact ⟨fun a ha => mem_cons_of_mem _ ha, fun _ => mem_cons_self⟩

end Touched

/-! ## The pages one after the other -/

/-- the segments to be loaded, of the program headers `is` -/
def segments (img : Image) (eh : Ehdr) (is : List ℕ) : List Phdr :=
  is.filterMap fun i => match segment img eh i with
    | .ok o => o
    | .error _ => none

/-- the pages of the segments, in the order in which they are loaded -/
def targets (phs : List Phdr) : List (Phdr × U64) := phs.flatMap fun ph => ph.pages.map fun va => (ph, va)

/-- the loop over pages of one or more segments -/
def loadTargets (img : Image) : List (Phdr × U64) → Load → Except Stop (Bool × Load)
  | [], s => pure (true, s)
  | (ph, va) :: l, s => do
    let (done, s) ← loadPage img ph va s
    if done then loadTargets img l s else pure (false, s)

section Targets

variable {img : Image} {ph : Phdr} {eh : Ehdr} {l m : List (Phdr × U64)} {s t : Load} {d : Bool}

theorem mem_segments {is : List ℕ} : ph ∈ segments img eh is ↔ ∃ i ∈ is, segment img eh i = .ok (some ph) := by
  rw [segments, mem_filterMap]
  refine exists_congr fun i => and_congr_right fun _ => ?_
  cases segment img eh i <;> simp

theorem loadTargets_append (l m : List (Phdr × U64)) (s : Load) : loadTargets img (l ++ m) s =
    loadTargets img l s >>= fun r => if r.1 then loadTargets img m r.2 else pure (false, r.2) := by
  induction l generalizing s with
  | nil => rfl
  | cons p l ih =>
    rw [cons_append, loadTargets, loadTargets, bind_assoc]
    refine bind_congr fun ⟨d, t⟩ => ?_
    cases d with
    | false => rfl
    | true => exact ih t

theorem loadPages_eq (ph : Phdr) (vas : List U64) (s : Load) :
    loadPages img ph vas s = loadTargets img (vas.map fun va => (ph, va)) s := by
  induction vas generalizing s with
  | nil => rfl
  | cons va vas ih => simp only [loadPages, map_cons, loadTargets, ih]

/-- a load that returns has gone through the pages -/
theorem loadSegments_targets {is : List ℕ} {r : Bool × Load} (h : loadSegments img eh is s = .ok r) :
    loadTargets img (targets (segments img eh is)) s = .ok r := by
  induction is generalizing s with
  | nil => exact h
  | cons i is ih =>
    obtain ⟨o, hseg, h⟩ := bind_ok.1 h
    cases o with
    | none =>
      rw [show segments img eh (i :: is) = segments img eh is from filterMap_cons_none (by rw [hseg])]
      exact ih h
    | some ph =>
      obtain ⟨⟨d, u⟩, hpages, h⟩ := bind_ok.1 h
      rw [show segments img eh (i :: is) = ph :: segments img eh is from filterMap_cons_some (by rw [hseg]), targets,
        flatMap_cons, loadTargets_append, ← loadPages_eq, hpages, ok_bind]
      cases d with
      | false => exact h
      | true => exact ih h

/-- the log only grows, and the pages that were loaded are in it -/
theorem loadTargets_touched (h : loadTargets img l s = .ok (d, t)) :
    (∀ a ∈ s.touched, a ∈ t.touched) ∧ (d = true → ∀ p ∈ l, p.2 ∈ t.touched) := by
  induction l generalizing s with
  | nil =>
    obtain ⟨-, rfl⟩ := Prod.mk.inj (pure_ok.1 h)
    exact ⟨fun a ha => ha, fun _ p hp => absurd hp not_mem_nil⟩
  | cons p l ih =>
    obtain ⟨⟨e, u⟩, hpage, h⟩ := bind_ok.1 h
    obtain ⟨h1, h2⟩ := loadPage_touched hpage
    cases e with
    | false =>
      obtain ⟨rfl, rfl⟩ := Prod.mk.inj (pure_ok.1 h)
      exact ⟨h1, fun hc => absurd hc (by decide)⟩
    | true =>
      obtain ⟨h3, h4⟩ := ih h
      exact ⟨fun a ha => h3 a (h1 a ha), fun hd => forall_mem_cons.2 ⟨h3 _ (h2 rfl), h4 hd⟩⟩

end Targets

/-- the pages of the file, in the order in which they are loaded -/
def fileTargets (img : Image) (eh : Ehdr) : List (Phdr × U64) := targets (segments img eh (List.range eh.phnum))

theorem mem_fileTargets {img : Image} {eh : Ehdr} {p : Phdr × U64} : p ∈ fileTargets img eh ↔
    (∃ i < eh.phnum, segment img eh i = .ok (some p.1)) ∧ p.2 ∈ p.1.pages := by
  simp only [fileTargets, targets, mem_flatMap, mem_segments, mem_map, mem_range, Prod.ext_iff]
  constructor
  · rintro ⟨ph, hi, va, hva, rfl, rfl⟩
    exact ⟨hi, hva⟩
  · rintro ⟨hi, hva⟩
    exact ⟨_, hi, _, hva, rfl, rfl⟩

/-- a load that returns has gone through the pages of the file, to the end if it returns an entry point -/
theorem elfLoad_targets {img : Image} {eh : Ehdr} {k : Kern} {entry : U64} {t : Load}
    (h : elfLoad img k = .ok (entry, t)) (heh : header img = .ok (some eh)) :
    ∃ d, loadTargets img (fileTargets img eh) ⟨k, []⟩ = .ok (d, t) ∧ (entry ≠ 0 → d = true) := by
  unfold elfLoad at h
  rw [heh, ok_bind] at h
  obtain ⟨⟨d, u⟩, hrun, h⟩ := bind_ok.1 h
  refine ⟨d, ?_, fun hentry => ?_⟩
  · rw [fileTargets, loadSegments_targets hrun]
    cases d with
    | false => rw [(Prod.mk.inj (pure_ok.1 h)).2]
    | true =>
      obtain ⟨n, -, h⟩ := bind_ok.1 h
      rw [(Prod.mk.inj (pure_ok.1 h)).2]
  · cases d with
    | false => exact absurd (Prod.mk.inj (pure_ok.1 h)).1.symm hentry
    | true => rfl

/-! ## The loops -/

section Loops

variable {img : Image} {ph : Phdr} {eh : Ehdr} {s : Load} {S : Stop → Prop} {I : Load → Prop}

/-- what loading a page keeps is kept by the loop over the pages of a segment -/
theorem loadPages_meets {vas : List U64} (hpage : ∀ va ∈ vas, ∀ s, I s → Meets (loadPage img ph va s) S fun r => I r.2)
    (h : I s) : Meets (loadPages img ph vas s) S fun r => I r.2 := by
  induction vas generalizing s with
  | nil => exact meets_ok h
  | cons va vas ih =>
    obtain ⟨hva, hvas⟩ := forall_mem_cons.1 hpage
    refine (hva s h).bind ?_
    rintro ⟨done, t⟩ ht
    cases done with
    | false => exact meets_ok ht
    | true => exact ih hvas ht

/-- and by the loop over the segments -/
theorem loadSegments_meets {is : List ℕ} (hread : ∀ i ∈ is, Meets (segment img eh i) S fun _ => True)
    (hpage : ∀ i ∈ is, ∀ ph, segment img eh i = .ok (some ph) → ∀ va ∈ ph.pages, ∀ s, I s →
      Meets (loadPage img ph va s) S fun r => I r.2) (h : I s) : Meets (loadSegments img eh is s) S fun r => I r.2 := by
  induction is generalizing s with
  | nil => exact meets_ok h
  | cons i is ih =>
    obtain ⟨hi, his⟩ := forall_mem_cons.1 hread
    obtain ⟨hp, hpage⟩ := forall_mem_cons.1 hpage
    refine hi.self.bind fun o ho => ?_
    cases o with
    | none => exact ih his hpage h
    | some ph =>
      refine (loadPages_meets (hp ph ho) h).bind ?_
      rintro ⟨done, t⟩ ht
      cases done with
      | false => exact meets_ok ht
      | true => exact ih his hpage ht

end Loops

/-! ## A load into the user half -/

section Filled

variable {img : Image} {ph : Phdr} {eh : Ehdr} {k₀ : Kern} {s : Load} {S : Finset ℕ}

/-- a state of the load -/
def Filled (k₀ : Kern) (s : Load) : Prop := (∃ S, Kern.Filling k₀ s.kern S) ∧ ∀ va ∈ s.touched, va < userEnd

theorem loadPage_filled {va : U64} (hcr3 : frame k₀.cr3 = k₀.pml4) (F : Filled k₀ s) (hva : va < userEnd) :
    Meets (loadPage img ph va s) NotFree fun r => Filled k₀ r.2 := by
  obtain ⟨⟨S, F⟩, htouched⟩ := F
  have hva47 : va.toNat < 2 ^ 47 := BitVec.lt_def.1 hva
  unfold loadPage
  refine meets_alloc F.spaces.trees.pmm (fun _ => ?_) fun t p ht h0 hT => ?_
  · simp only [if_true]
    exact meets_ok ⟨⟨S, F⟩, htouched⟩
  · simp only [if_neg h0]
    rw [(Pmm.pageIdx_of_free F.spaces.trees.pmm ht).2]
    have hmap := @Kern.Filling.mapped k₀ s.kern S ⟨va, hva⟩ pageFlags t p (fun _ => 0) F ht hT pageFlags_user
      pageFlags_write
    refine (hmap.mono (fun _ hst => MapStop.notFree hst) fun _ h => h).bind ?_
    rintro k1 ⟨S', F1, -⟩
    split_ifs with hcopy
    · refine (Image.copyIn_spec F1 hcr3 (by omega)).notFree.bind ?_
      rintro k2 ⟨F2, hsum⟩
      refine meets_ok ⟨⟨_, F2⟩, fun a ha => ?_⟩
      rcases mem_append.1 ha with ha | ha
      · obtain ⟨j, hj, rfl⟩ := mem_map.1 ha
        rw [mem_range] at hj
        rw [BitVec.lt_def, BitVec.toNat_add, BitVec.toNat_ofNat, show userEnd.toNat = 2 ^ 47 from rfl]
        omega
      · exact (mem_cons.1 ha).elim (fun hc => hc ▸ hva) (htouched a)
    · refine meets_ok ⟨⟨_, F1⟩, fun a ha => ?_⟩
      exact (mem_cons.1 ha).elim (fun hc => hc ▸ hva) (htouched a)

theorem segment_meets (img : Image) (eh : Ehdr) (i : ℕ) : Meets (segment img eh i) Unhandled fun _ => True := by
  unfold segment
  refine (img.field_meets _ _).bind fun type _ => ?_
  split_ifs with h
  · exact meets_ok trivial
  · exact (img.field_meets _ _).bind fun _ _ => (img.field_meets _ _).bind fun _ _ =>
      (img.field_meets _ _).bind fun _ _ => (img.field_meets _ _).bind fun _ _ => meets_ok trivial

theorem header_meets (img : Image) :
    Meets (header img) Unhandled fun o => ∀ eh, o = some eh → header img = .ok (some eh) := by
  have hident : ∀ l : List U64, Meets (l.mapM img.get) Unhandled fun _ => True := by
    intro l
    induction l with
    | nil => exact meets_ok trivial
    | cons a l ih =>
      rw [mapM_cons]
      exact (img.get_meets a).bind fun _ _ => ih.bind fun _ _ => meets_ok trivial
  have hstop : Meets (header img) Unhandled fun _ => True := by
    unfold header
    split_ifs
    · exact meets_ok trivial
    refine (hident _).bind fun _ _ => ?_
    split_ifs
    · exact meets_ok trivial
    refine (img.get_meets _).bind fun _ _ => ?_
    split_ifs
    · exact meets_ok trivial
    refine (img.field_meets _ _).bind fun _ _ => ?_
    split_ifs
    · exact meets_ok trivial
    refine (img.field_meets _ _).bind fun _ _ => (img.field_meets _ _).bind fun _ _ => ?_
    split_ifs
    · exact meets_ok trivial
    refine (img.field_meets _ _).bind fun _ _ => ?_
    dsimp only
    split_ifs
    · exact meets_ok trivial
    · exact meets_ok trivial
  exact hstop.self.mono (fun _ hst => hst) fun o ho eh heh => heh ▸ ho

/-- **A load with user segments only** fills the space. -/
theorem elfLoad_filling {k : Kern} (h : k.FreshSpace) (huser : UserSegments img) :
    Meets (elfLoad img k) NotFree fun r => Filled k r.2 := by
  have F0 : Filled k ⟨k, []⟩ := ⟨⟨∅, h.filling⟩, fun va hva => absurd hva not_mem_nil⟩
  unfold elfLoad
  refine (header_meets img).notFree.bind fun o ho => ?_
  cases o with
  | none => exact meets_ok F0
  | some eh =>
    have hpage : ∀ i ∈ List.range eh.phnum, ∀ ph, segment img eh i = .ok (some ph) → ∀ va ∈ ph.pages, va < userEnd :=
      fun i hi ph hph va hva => (huser eh (ho eh rfl) i (mem_range.1 hi) ph hph).page hva
    refine (loadSegments_meets (fun i _ => (segment_meets img eh i).notFree) (fun i hi ph hph va hva s F =>
      loadPage_filled h.cr3 F (hpage i hi ph hph va hva)) F0).bind ?_
    rintro ⟨done, s⟩ F
    cases done with
    | false => exact meets_ok F
    | true => exact (img.field_meets _ _).notFree.bind fun _ _ => meets_ok F

end Filled

/-! ### Files -/

/-- `n` bytes of a number, little endian -/
def leBytes (n v : ℕ) : List (BitVec 8) := (List.range n).map fun i => BitVec.ofNat 8 (v / 256 ^ i)

theorem bootKern_fresh : SpaceSet.bootKern.FreshSpace where
  pmm := SpaceSet.bootKern_ok
  phys := by decide
  inside := by decide
  used := by
    rw [SpaceSet.bootKern_free]
    decide
  cr3 := SpaceSet.bootKern_cr3
  lower i hi := by
    rw [mem_lowerHalf] at hi
    refine if_neg ?_
    rintro rfl
    exact absurd hi (by decide)

end Elf

end Uix
