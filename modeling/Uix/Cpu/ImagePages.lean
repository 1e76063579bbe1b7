/-
The pages of a program image, and what becomes of a load when memory runs out. With the account of `Uix.Memory.Demand`
the outcome of each loader is known from the image and from the number of free pages.

- `Stocked.copyIn`: a copy succeeds exactly if its bytes are there and all its addresses are mapped, unless it comes to
  an address that was mapped before (`Spills`).
- `Stocked.loadFlat`, `Stocked.mapStack`, `Stocked.buildUserStack`: a flat image and the stack.
- `loadPage_account`, `loadSegments_account`, `elfLoad_accounts`: the ELF loader. With enough pages it returns exactly
  if its pages are different and every copy can be made (`Fits`).
- `elfLoad_account`: in the user half of a new space, where it never goes on with page 0.
-/
import Uix.Cpu.ExecSpec
import Uix.Memory.Demand

namespace Uix

open Machine Radix Radix.Format List
open Pmm (pageIdx pageAddr Takes)

/-! ## Copies -/

/-- the `n` bytes from `off` on are there, and the addresses from `va` on lie in the pages `vas` -/
def Image.Copies (img : Image) (vas : List U64) (n : ℕ) (va off : U64) : Prop := ∀ j < n,
  img.byte (off + BitVec.ofNat 64 j) ≠ none ∧ Canonical (va + BitVec.ofNat 64 j) ∧
    Kern.Covered vas (va + BitVec.ofNat 64 j)

/-- the bytes of the image can be read -/
def Image.Readable (img : Image) : Prop := ∀ off, off < img.len → img.byte off ≠ none

namespace Kern

/-- as long as its addresses are canonical, a copy of `n` bytes stays below the entries `is` of the PML4 -/
def Reaches (is : List (Fin 512)) (n : ℕ) (va : U64) : Prop :=
  ∀ j < n, (∀ i ≤ j, Canonical (va + BitVec.ofNat 64 i)) → idx (va + BitVec.ofNat 64 j) 3 ∈ is

/-- a copy of `n` bytes comes to an address that was mapped before -/
def Spills (B : Base) (n : ℕ) (va : U64) : Prop :=
  ∃ j < n, Canonical (va + BitVec.ofNat 64 j) ∧ B.taken (va + BitVec.ofNat 64 j)

/-- a page at `va`, and any copy from there on, stay below the entries `is` -/
def Within (is : List (Fin 512)) (va : U64) : Prop := idx va 3 ∈ is ∧ ∀ n, Reaches is n va

/-- the entries `is` have the whole user half below them, in which nothing is mapped -/
structure UserFree (is : List (Fin 512)) (B : Base) : Prop where
  nodup : is.Nodup
  free : ∀ va : U64, va < userEnd → idx va 3 ∈ is ∧ ¬ B.taken va

section Copy

variable {img : Image} {is : List (Fin 512)} {B : Base} {k₀ k : Kern} {vas : List U64} {n : ℕ} {va off : U64}

theorem copies_succ : img.Copies vas (n + 1) va off ↔
    (img.byte off ≠ none ∧ Canonical va ∧ Covered vas va) ∧ img.Copies vas n (va + 1) (off + 1) := by
  simp only [Image.Copies, Nat.forall_lt_succ_left, addr_zero, addr_succ]

theorem spills_succ : Spills B (n + 1) va ↔ (Canonical va ∧ B.taken va) ∨ Spills B n (va + 1) := by
  simp only [Spills, Nat.exists_lt_succ_left, addr_zero, addr_succ]

theorem not_spills_fresh : ¬ Spills .fresh n va := by
  rintro ⟨j, -, -, hc⟩
  exact hc

theorem Reaches.head (h : Reaches is (n + 1) va) (hc : Canonical va) : idx va 3 ∈ is := by
  have h0 := h 0 n.succ_pos fun i hi => by rwa [Nat.le_zero.1 hi, addr_zero]
  rwa [addr_zero] at h0

theorem Reaches.tail (h : Reaches is (n + 1) va) (hc : Canonical va) : Reaches is n (va + 1) := by
  intro j hj hcan
  rw [← addr_succ]
  refine h (j + 1) (Nat.succ_lt_succ hj) fun i hi => ?_
  cases i with
  | zero => rwa [addr_zero]
  | succ i =>
    rw [addr_succ]
    exact hcan i (Nat.le_of_succ_le_succ hi)

/-- a copy leaves the user half over addresses that are not canonical -/
theorem within_user (h : va < userEnd) : Within lowerHalf va := by
  have h47 : va.toNat < 2 ^ 47 := BitVec.lt_def.1 h
  refine ⟨UserAddr.lower ⟨va, h⟩, fun n j _ hcan => ?_⟩
  have hin : va.toNat + j < 2 ^ 47 := by
    by_contra hout
    have hedge : (va + BitVec.ofNat 64 (2 ^ 47 - va.toNat)).toNat = 2 ^ 47 := by
      rw [BitVec.toNat_add, BitVec.toNat_ofNat]
      omega
    rcases hcan (2 ^ 47 - va.toNat) (by omega) with hc | hc <;> omega
  refine UserAddr.lower ⟨_, BitVec.lt_def.2 ?_⟩
  rw [BitVec.toNat_add, BitVec.toNat_ofNat, show (0x0000800000000000#64).toNat = 2 ^ 47 from rfl]
  omega

theorem FreshSpace.stockedFresh (h : k.FreshSpace) : Stocked lowerHalf .fresh k k [] :=
  h.stocked fun _ _ => ⟨rfl, not_false⟩

theorem userFree_fresh : UserFree lowerHalf .fresh := ⟨lowerHalf_nodup, fun _ h => ⟨(within_user h).1, not_false⟩⟩

/-- **A copy.** -/
theorem Stocked.copyIn (h : Stocked is B k₀ k vas) (hcr3 : frame k₀.cr3 = k₀.pml4) (hva : Reaches is n va) :
    Meets (img.copyIn n va off k) (fun st => (Unhandled st ∨ Spills B n va) ∧ ¬ img.Copies vas n va off) fun k' =>
      (Stocked is B k₀ k' vas ∧ img.Copies vas n va off) ∨ (Spills B n va ∧ ¬ img.Copies vas n va off) := by
  induction n generalizing va off k with
  | zero => exact meets_ok (.inl ⟨h, fun j hj => absurd hj (Nat.not_lt_zero j)⟩)
  | succ n ih =>
    rw [Image.copyIn, Image.get, copies_succ, spills_succ]
    cases img.byte off with
    | none => exact meets_error ⟨.inl rfl, fun hc => hc.1.1 rfl⟩
    | some b =>
      dsimp only
      rw [pure_eq_ok, ok_bind]
      by_cases hcan : Canonical va
      swap
      · rw [Kern.write, if_pos hcan]
        exact meets_error ⟨.inl rfl, fun hc => hcan hc.1.2.1⟩
      by_cases hcov : Covered vas va
      · obtain ⟨k1, hwrite, h1⟩ := h.write hcr3 hcov hcan b
        have hfirst : some b ≠ none ∧ Canonical va ∧ Covered vas va := ⟨Option.some_ne_none b, hcan, hcov⟩
        rw [hwrite, ok_bind, and_iff_right hfirst]
        exact (ih h1 (hva.tail hcan)).mono (fun e he => ⟨he.1.imp_right .inr, he.2⟩)
          fun k' hk' => hk'.imp_right fun hs => ⟨.inr hs.1, hs.2⟩
      by_cases htaken : B.taken va
      · -- a store to memory that the space had before
        exact ⟨fun _ => .inr ⟨.inl ⟨hcan, htaken⟩, fun hc => hcov hc.1.2.2⟩,
          fun _ => ⟨.inr (.inl ⟨hcan, htaken⟩), fun hc => hcov hc.1.2.2⟩⟩
      · have hnone : paging.walk k.mem 3 k.pml4 (idx va) = none := by
          rw [h.active]
          by_contra hc
          exact ((h.mapped va (hva.head hcan)).1 hc).elim htaken hcov
        rw [write_absent (by rw [h.active, h.regs.2.1, hcr3]) hnone]
        exact meets_error ⟨.inl rfl, fun hc => hcov hc.1.2.2⟩

/-- a copy inside one page -/
theorem copies_page (hcov : Covered vas va) (hva : va.toNat + pageSize ≤ 2 ^ 47) (haligned : va.toNat % pageSize = 0)
    (hn : n ≤ pageSize) (hbytes : ∀ j < n, img.byte (off + BitVec.ofNat 64 j) ≠ none) : img.Copies vas n va off := by
  intro j hj
  rw [pageSize] at hva haligned hn
  have hsum : (va + BitVec.ofNat 64 j).toNat = va.toNat + j := by
    rw [BitVec.toNat_add, BitVec.toNat_ofNat]
    omega
  obtain ⟨a, ha, hpage⟩ := hcov
  refine ⟨hbytes j hj, .inl (by omega), a, ha, ?_⟩
  rw [← hpage, vpage, vpage, hsum, pageSize]
  omega

end Copy

/-! ## Flat images and the stack -/

/-- the pages of a flat image -/
def flatPages (len : U64) : List U64 := (flatOffsets len).map fun off => userCodeBase + BitVec.ofNat 64 off

section Flat

variable {img : Image} {is : List (Fin 512)} {B : Base} {k₀ k : Kern} {done vas : List U64}

/-- **The loop over a flat image.** -/
theorem Stocked.loadFlat (h : Stocked lowerHalf .fresh k₀ k done) (hcr3 : frame k₀.cr3 = k₀.pml4)
    (hsize : img.len.toNat + 0x400000 ≤ 2 ^ 47) (hbytes : img.Readable) :
    Predicted (pagesStop .fresh k₀.pmm.freeSet.card done (flatPages img.len)) (loadFlat img k)
      fun k' => Stocked lowerHalf .fresh k₀ k' ((flatPages img.len).reverse ++ done) := by
  refine h.loop fun off hoff done k h => ?_
  have hlt := mem_flatOffsets hoff
  have haddr := @codeAddr off (by omega)
  have hva : userCodeBase + BitVec.ofNat 64 off < userEnd :=
    BitVec.lt_def.2 (by rw [haddr, show userEnd.toNat = 2 ^ 47 from rfl]; omega)
  have hdvd : off % pageSize = 0 := by
    obtain ⟨i, -, rfl⟩ := mem_map.1 hoff
    exact Nat.mul_mod_left i pageSize
  unfold loadFlatPage
  refine (h.mapPage lowerHalf_nodup (within_user hva).1 not_false pageFlags_user.1 pageFlags_write).then ?_
  rintro ⟨pa, k1⟩ h1
  dsimp only at h1 ⊢
  set chunk := if pageSize < img.len.toNat - off then pageSize else img.len.toNat - off with hchunk
  have hle : chunk ≤ pageSize ∧ off + chunk ≤ img.len.toNat := by
    rw [hchunk]
    split_ifs <;> omega
  have hcopies : img.Copies ((userCodeBase + BitVec.ofNat 64 off) :: done) chunk (userCodeBase + BitVec.ofNat 64 off)
      (BitVec.ofNat 64 off) := by
    refine copies_page ⟨_, mem_cons_self, rfl⟩ ?_ ?_ hle.1 fun j hj => hbytes _ (BitVec.lt_def.2 ?_)
    · rw [haddr]
      rw [pageSize] at hdvd ⊢
      omega
    · rw [haddr]
      rw [pageSize] at hdvd ⊢
      omega
    · rw [BitVec.toNat_add, BitVec.toNat_ofNat, BitVec.toNat_ofNat]
      omega
  obtain ⟨k2, hcopy, hcase⟩ := (h1.copyIn hcr3 ((within_user hva).2 chunk)).exists_ok fun st hst => hst.2 hcopies
  exact ⟨k2, hcopy, (hcase.resolve_right fun hc => hc.2 hcopies).1⟩

/-- **The loop over the stack.** -/
theorem Stocked.mapStack (h : Stocked is B k₀ k done) (hB : UserFree is B) :
    Predicted (pagesStop B k₀.pmm.freeSet.card done stackPages) (mapStack k)
      fun k' => Stocked is B k₀ k' (stackPages.reverse ++ done) := by
  unfold Kern.mapStack
  have hloop := fun body => @Stocked.loop is B k₀ k done U64 body id stackPages h
  rw [map_id] at hloop
  refine hloop _ fun va hva done k h => ?_
  obtain ⟨hx, hfree⟩ := hB.free va (stackPages_user va hva)
  exact (h.mapPage hB.nodup hx hfree pageFlags_user.1 pageFlags_write).then fun r h1 => ⟨r.2, rfl, h1⟩

/-- **Bytes inside one page** that is there -/
theorem Stocked.writeBytes {va : U64} {bs : List (BitVec 8)} (h : Stocked is B k₀ k vas) (hcr3 : frame k₀.cr3 = k₀.pml4)
    {page : ℕ} (hpage : page < 2 ^ 35) (hcov : ∀ a : U64, a.toNat / pageSize = page → Covered vas a)
    (hlow : page * pageSize ≤ va.toNat) (hhigh : va.toNat + bs.length ≤ (page + 1) * pageSize) :
    Meets (writeBytes bs va k) (fun _ => False) fun k' => Stocked is B k₀ k' vas := by
  rw [pageSize] at hlow hhigh
  induction bs generalizing va k with
  | nil => exact meets_ok h
  | cons b bs ih =>
    rw [length_cons] at hhigh
    obtain ⟨-, hnext⟩ := user_next (v := va) (by omega)
    have hin : va.toNat / pageSize = page := by
      rw [pageSize]
      omega
    obtain ⟨k1, hwrite, h1⟩ := h.write hcr3 (hcov va hin) (.inl (by omega)) b
    rw [Kern.writeBytes, hwrite, ok_bind]
    exact ih h1 (by omega) (by omega)

/-- **The words at the top of the stack.** -/
theorem Stocked.buildUserStack {path : List (BitVec 8)} (h : Stocked is B k₀ k vas) (hcr3 : frame k₀.cr3 = k₀.pml4)
    (hpath : path.length ≤ 63) (hcov : ∀ a : U64, a.toNat / pageSize = 0x7FF → Covered vas a) :
    ∃ r, buildUserStack path k = .ok r ∧ Stocked is B k₀ r.2 vas :=
  (@buildUserStack_meets k path (fun _ => False) (fun k => Stocked is B k₀ k vas) hpath (fun k va bs h hlow hhigh =>
    h.writeBytes hcr3 (by decide) hcov (by rw [pageSize]; omega) (by rw [pageSize]; omega)) h).exists_ok fun _ hc => hc

theorem stackPage_page {n : ℕ} (h : n < 64) :
    vpage (userStackTop - BitVec.ofNat 64 ((n + 1) * pageSize)) = 2047 - n := by
  rw [vpage, BitVec.toNat_sub, BitVec.toNat_ofNat, show userStackTop.toNat = 0x800000 from rfl, pageSize]
  omega

theorem stackPages_apart : stackPages.Pairwise fun a b => vpage a ≠ vpage b := by
  refine pairwise_map.2 (pairwise_lt_range.imp_of_mem fun {i j} hi hj hij => ?_)
  rw [stackPage_page (mem_range.1 hi), stackPage_page (mem_range.1 hj)]
  have := mem_range.1 hj
  omega

/-- the first page of the stack -/
theorem covered_stack (vas : List U64) (a : U64) (ha : a.toNat / pageSize = 0x7FF) :
    Covered (stackPages.reverse ++ vas) a := by
  refine ⟨_, mem_append_left _ (mem_reverse.2 (mem_map_of_mem (mem_range.2 (by decide : 0 < 64)))), ?_⟩
  rw [vpage, ha, stackPage_page (by decide)]
  rfl

/-- **The stack of an ELF program.** -/
theorem Stocked.elfStack {path : List (BitVec 8)} (entry : U64) (h : Stocked is B k₀ k done) (hB : UserFree is B)
    (hcr3 : frame k₀.cr3 = k₀.pml4) (hpath : path.length ≤ 63) :
    Predicted (pagesStop B k₀.pmm.freeSet.card done stackPages) (do
      let k ← k.mapStack
      let (rsp, k) ← Kern.buildUserStack path k
      pure (some (entry, rsp), k) : Except Stop (Option (U64 × U64) × Kern)) fun r =>
        r.1 = some (entry, rspAt path) ∧ Stocked is B k₀ r.2 (stackPages.reverse ++ done) := by
  refine (h.mapStack hB).then fun k1 h1 => ?_
  obtain ⟨r, hbuild, h2⟩ := h1.buildUserStack hcr3 hpath (covered_stack done)
  exact ⟨_, bind_ok.2 ⟨r, hbuild, rfl⟩, congrArg (fun rsp => some (entry, rsp)) (buildUserStack_rsp hbuild), h2⟩

end Flat

end Kern

/-! ## ELF images -/

namespace Elf

open Kern (Covered Stocked Base cost)

/-- the bytes of a page of a segment come from the file -/
def Copied (ph : Phdr) (va : U64) : Prop := ph.offset ≤ ph.fileOff va ∧ va < ph.vaddr + ph.filesz

/-- a page of a segment can be loaded after the pages `done` -/
structure PageFits (img : Image) (ph : Phdr) (done : List U64) (va : U64) : Prop where
  apart : ¬ Covered done va
  copies : Copied ph va → img.Copies (va :: done) (ph.copyLen img.len va).toNat va (ph.fileOff va)

/-- the pages can be loaded one after the other -/
def Fits (img : Image) : List U64 → List (Phdr × U64) → Prop
  | _, [] => True
  | done, (ph, va) :: todo => PageFits img ph done va ∧ Fits img (va :: done) todo

/-- the copy into the page comes to an address that was mapped before -/
def Spill (B : Base) (img : Image) (p : Phdr × U64) : Prop :=
  Copied p.1 p.2 ∧ Kern.Spills B (p.1.copyLen img.len p.2).toNat p.2

section Account

variable {img : Image} {ph : Phdr} {eh : Ehdr} {is : List (Fin 512)} {B : Base} {k₀ : Kern} {s : Load} {done : List U64}
  {l m : List (Phdr × U64)}

/-- the pages `l` can be loaded after the pages `done`, and none of them was mapped before -/
def FitsIn (B : Base) (img : Image) (done : List U64) (l : List (Phdr × U64)) : Prop :=
  (∀ p ∈ l, ¬ B.taken p.2) ∧ Fits img done l

/-- the pages mapped once the pages `l` are loaded after the pages `done` -/
def after (done : List U64) (l : List (Phdr × U64)) : List U64 := (l.map Prod.snd).reverse ++ done

theorem after_append : after done (l ++ m) = after (after done l) m := by
  rw [after, map_append, reverse_append, append_assoc]
  rfl

theorem fits_append : Fits img done (l ++ m) ↔ Fits img done l ∧ Fits img (after done l) m := by
  induction l generalizing done with
  | nil => exact (iff_of_eq (true_and _)).symm
  | cons p l ih =>
    rw [cons_append, Fits, Fits, ih, and_assoc, after, after, map_cons, reverse_cons, append_assoc, singleton_append]

theorem fitsIn_append : FitsIn B img done (l ++ m) ↔ FitsIn B img done l ∧ FitsIn B img (after done l) m := by
  rw [FitsIn, forall_mem_append, fits_append, and_and_and_comm]
  rfl

/-- a copy has come to an address that was mapped before -/
def Spilt (B : Base) (img : Image) (done : List U64) (l : List (Phdr × U64)) : Prop :=
  (∃ p ∈ l, Spill B img p) ∧ ¬ FitsIn B img done l

/-- what a loader does with the pages `l` after the pages `done`: it returns true only if they fit, and otherwise it is
short of pages or they do not fit. It goes on with page 0, or past a page that does not fit, only where something was
mapped. -/
def Accounts (is : List (Fin 512)) (B : Base) (img : Image) (k₀ : Kern) (done : List U64) (l : List (Phdr × U64))
    (ready : Prop) (x : Except Stop (Bool × Load)) : Prop :=
  Meets x (fun e => (e = .wild → ∃ p ∈ l, B.taken p.2 ∨ Spill B img p) ∧
      (ready → FitsIn B img done l → k₀.pmm.freeSet.card < cost B (after done l))) fun r =>
    (r.1 = true → ((ready ∧ FitsIn B img done l) ∧ Stocked is B k₀ r.2.kern (after done l)) ∨ Spilt B img done l) ∧
      (r.1 = false → k₀.pmm.freeSet.card < cost B (after done l) ∨ Spilt B img done l)

/-- one loader after the other -/
theorem Accounts.seq {ready ready' : Prop} {x : Except Stop (Bool × Load)}
    {f : Bool × Load → Except Stop (Bool × Load)} (hx : Accounts is B img k₀ done l ready x)
    (hstop : ∀ s, f (false, s) = .ok (false, s))
    (hf : ∀ s, Stocked is B k₀ s.kern (after done l) → Accounts is B img k₀ (after done l) m ready' (f (true, s))) :
    Accounts is B img k₀ done (l ++ m) (ready ∧ ready') (x >>= f) := by
  have hle : cost B (after done l) ≤ cost B (after done (l ++ m)) := by
    rw [after_append]
    exact Kern.cost_le_append _ _
  have hspilt : Spilt B img done l → Spilt B img done (l ++ m) := by
    rintro ⟨⟨p, hp, hs⟩, hno⟩
    exact ⟨⟨p, mem_append_left m hp, hs⟩, fun hc => hno (fitsIn_append.1 hc).1⟩
  have hwild : (∃ p ∈ l, B.taken p.2 ∨ Spill B img p) → ∃ p ∈ l ++ m, B.taken p.2 ∨ Spill B img p := by
    rintro ⟨p, hp, h⟩
    exact ⟨p, mem_append_left m hp, h⟩
  refine (hx.mono (fun e he => ⟨fun hw => hwild (he.1 hw), fun hr hfits =>
    (he.2 hr.1 (fitsIn_append.1 hfits).1).trans_le hle⟩) fun _ h => h).bind ?_
  rintro ⟨d, s⟩ ⟨htrue, hfalse⟩
  cases d with
  | false =>
    rw [hstop]
    exact meets_ok ⟨fun hc => (by cases hc), fun _ => (hfalse rfl).imp (·.trans_le hle) hspilt⟩
  | true =>
    rcases htrue rfl with ⟨⟨hr, hfits⟩, hs⟩ | hs
    · have hrest : Spilt B img (after done l) m → Spilt B img done (l ++ m) := by
        rintro ⟨⟨p, hp, hs⟩, hno⟩
        exact ⟨⟨p, mem_append_right l hp, hs⟩, fun hc => hno (fitsIn_append.1 hc).2⟩
      rw [after_append]
      refine (hf s hs).mono (fun e he => ⟨fun hw => ?_, fun hr' hfits' => he.2 hr'.2 (fitsIn_append.1 hfits').2⟩)
        fun r h => ⟨fun h1 => (h.1 h1).imp (fun ⟨⟨hr', hfits'⟩, hs'⟩ => ?_) hrest, fun h1 => (h.2 h1).imp_right hrest⟩
      · obtain ⟨p, hp, h⟩ := he.1 hw
        exact ⟨p, mem_append_right l hp, h⟩
      · exact ⟨⟨⟨hr, hr'⟩, fitsIn_append.2 ⟨hfits, hfits'⟩⟩, hs'⟩
    · -- nothing is known of what follows
      obtain ⟨⟨p, hp, hspill⟩, hno⟩ := hspilt hs
      exact ⟨fun _ => ⟨fun _ => .inr ⟨⟨p, hp, hspill⟩, hno⟩, fun _ => .inr ⟨⟨p, hp, hspill⟩, hno⟩⟩,
        fun _ => ⟨fun _ => ⟨p, hp, .inr hspill⟩, fun _ hc => absurd hc hno⟩⟩

/-- **One page.** -/
theorem loadPage_account {va : U64} (h : Stocked is B k₀ s.kern done) (his : is.Nodup) (hcr3 : frame k₀.cr3 = k₀.pml4)
    (hva : Kern.Within is va) : Accounts is B img k₀ done [(ph, va)] True (loadPage img ph va s) := by
  have hleft := h.left
  have hafter : after done [(ph, va)] = va :: done := rfl
  have hfitsIn : FitsIn B img done [(ph, va)] ↔ ¬ B.taken va ∧ PageFits img ph done va := by
    rw [FitsIn, forall_mem_singleton]
    exact and_congr_right fun _ => iff_of_eq (and_true _)
  unfold Accounts Spilt loadPage
  simp only [hafter, hfitsIn, mem_singleton, exists_eq_left]
  refine Kern.meets_alloc_eq h.trees.pmm (fun hempty => ?_) fun t p ht h0 hT halloc => ?_
  · rw [hempty, Finset.card_empty] at hleft
    refine meets_ok ⟨fun hc => (by cases hc), fun _ => .inl ?_⟩
    rw [cost]
    omega
  simp only [if_neg h0]
  rw [(Pmm.pageIdx_of_free h.trees.pmm ht).2]
  refine ((h.attached (fun _ => 0) his hva.1 ht hT halloc pageFlags_user.1 pageFlags_write).mono ?_
    fun _ h => h).bind ?_
  · rintro e (⟨rfl, hcov⟩ | htaken | ⟨-, rfl, hfew⟩)
    · exact ⟨fun hc => (by cases hc), fun _ hfits => absurd hcov hfits.2.apart⟩
    · exact ⟨fun _ => .inl htaken, fun _ hfits => absurd htaken hfits.1⟩
    · exact ⟨fun hc => (by cases hc), fun _ _ => hfew⟩
  rintro k1 ⟨htaken, hcov, h1⟩
  split_ifs with hcopy
  · refine ((h1.copyIn hcr3 (hva.2 _)).mono ?_ fun _ h => h).bind ?_
    · rintro e ⟨hstop, hno⟩
      refine ⟨fun hw => .inr (hstop.elim (fun hc => ?_) fun hs => ⟨hcopy, hs⟩), fun _ hfits =>
        absurd (hfits.2.copies hcopy) hno⟩
      rw [hw] at hc
      cases hc
    · rintro k2 (⟨h2, hcopies⟩ | ⟨hs, hno⟩)
      · exact meets_ok ⟨fun _ => .inl ⟨⟨trivial, htaken, hcov, fun _ => hcopies⟩, h2⟩, fun hc => by cases hc⟩
      · exact meets_ok ⟨fun _ => .inr ⟨⟨hcopy, hs⟩, fun hc => hno (hc.2.copies hcopy)⟩, fun hc => by cases hc⟩
  · exact meets_ok ⟨fun _ => .inl ⟨⟨trivial, htaken, hcov, fun hc => absurd hc hcopy⟩, h1⟩, fun hc => by cases hc⟩

/-- **Pages one after the other.** -/
theorem loadTargets_account (h : Stocked is B k₀ s.kern done) (his : is.Nodup) (hcr3 : frame k₀.cr3 = k₀.pml4)
    (hl : ∀ p ∈ l, Kern.Within is p.2) : Accounts is B img k₀ done l True (loadTargets img l s) := by
  induction l generalizing s done with
  | nil =>
    exact meets_ok ⟨fun _ => .inl ⟨⟨trivial, fun _ hp => absurd hp not_mem_nil, trivial⟩, h⟩, fun hc => by cases hc⟩
  | cons p l ih =>
    obtain ⟨hp, hl⟩ := forall_mem_cons.1 hl
    rw [← and_self True]
    exact (loadPage_account h his hcr3 hp).seq (fun _ => rfl) fun s hs => ih hs hl

/-- the program headers can be read -/
def HeadersRead (img : Image) (eh : Ehdr) (is : List ℕ) : Prop := ∀ i ∈ is, ∃ o, segment img eh i = .ok o

/-- **All segments.** -/
theorem loadSegments_account {hs : List ℕ} (h : Stocked is B k₀ s.kern done) (his : is.Nodup)
    (hcr3 : frame k₀.cr3 = k₀.pml4) (hin : ∀ ph ∈ segments img eh hs, ∀ va ∈ ph.pages, Kern.Within is va) :
    Accounts is B img k₀ done (targets (segments img eh hs)) (HeadersRead img eh hs) (loadSegments img eh hs s) := by
  induction hs generalizing s done with
  | nil =>
    exact meets_ok ⟨fun _ => .inl ⟨⟨fun i hi => absurd hi not_mem_nil, fun _ hp => absurd hp not_mem_nil, trivial⟩, h⟩,
      fun hc => by cases hc⟩
  | cons i hs ih =>
    rw [loadSegments]
    cases hseg : segment img eh i with
    | error e =>
      refine meets_error ⟨fun hw => ?_, fun hr _ => ?_⟩
      · exact absurd (hw ▸ (segment_meets img eh i).stop hseg) fun hc => by cases hc
      · obtain ⟨o, ho⟩ := hr i mem_cons_self
        rw [hseg] at ho
        cases ho
    | ok o =>
      have hread : HeadersRead img eh (i :: hs) ↔ HeadersRead img eh hs :=
        forall_mem_cons.trans (and_iff_right ⟨o, hseg⟩)
      rw [ok_bind, hread]
      cases o with
      | none =>
        have hskip : segments img eh (i :: hs) = segments img eh hs := filterMap_cons_none (by rw [hseg])
        rw [hskip] at hin ⊢
        exact ih h hin
      | some ph =>
        have hcons : segments img eh (i :: hs) = ph :: segments img eh hs := filterMap_cons_some (by rw [hseg])
        rw [hcons, forall_mem_cons] at hin
        rw [hcons, targets, flatMap_cons, ← true_and (HeadersRead img eh hs)]
        have hpages := @loadTargets_account img is B k₀ s done (ph.pages.map fun va => (ph, va)) h his hcr3
          (forall_mem_map.2 hin.1)
        rw [← loadPages_eq] at hpages
        exact hpages.seq (fun _ => rfl) fun s hs => ih hs hin.2

end Account

def imagePages (img : Image) (eh : Ehdr) : List U64 := (fileTargets img eh).map Prod.snd

/-- the program headers can be read, the pages of the segments are different, and every copy can be made -/
structure Loadable (img : Image) (eh : Ehdr) : Prop where
  headers : HeadersRead img eh (List.range eh.phnum)
  fits : Fits img [] (fileTargets img eh)

/-- one of the pages was mapped before -/
def Blocked (B : Base) (img : Image) (eh : Ehdr) : Prop := ∃ p ∈ fileTargets img eh, B.taken p.2

/-- one of the copies comes to an address that was mapped before -/
def Spilling (B : Base) (img : Image) (eh : Ehdr) : Prop := ∃ p ∈ fileTargets img eh, Spill B img p

section Load

variable {img : Image} {eh : Ehdr} {is : List (Fin 512)} {B : Base} {k : Kern}

/-- **`elf_load`** in any part of the space. -/
theorem elfLoad_accounts (h : Stocked is B k k []) (his : is.Nodup) (hcr3 : frame k.cr3 = k.pml4)
    (heh : header img = .ok (some eh))
    (hin : ∀ ph ∈ segments img eh (List.range eh.phnum), ∀ va ∈ ph.pages, Kern.Within is va) :
    Meets (elfLoad img k)
      (fun e => (e = .wild → Blocked B img eh ∨ Spilling B img eh) ∧
        (Loadable img eh → ¬ Blocked B img eh → (∃ n, img.field 8 24#64 = .ok n) →
          k.pmm.freeSet.card < cost B (imagePages img eh).reverse))
      fun r => (r.1 = 0 ∧ k.pmm.freeSet.card < cost B (imagePages img eh).reverse) ∨
        (Spilling B img eh ∧ (Loadable img eh → Blocked B img eh)) ∨
        Loadable img eh ∧ ¬ Blocked B img eh ∧ Stocked is B k r.2.kern (imagePages img eh).reverse ∧
          ∃ n, img.field 8 24#64 = .ok n ∧ r.1 = BitVec.ofNat 64 n := by
  have hload := @loadSegments_account img eh is B k ⟨k, []⟩ [] (List.range eh.phnum) h his hcr3 hin
  have hafter : after [] (targets (segments img eh (List.range eh.phnum))) = (imagePages img eh).reverse := append_nil _
  have hblocked : (∀ p ∈ fileTargets img eh, ¬ B.taken p.2) ↔ ¬ Blocked B img eh := by
    rw [Blocked]
    push Not
    rfl
  have hspilt : Spilt B img [] (fileTargets img eh) → Spilling B img eh ∧ (Loadable img eh → Blocked B img eh) := by
    rintro ⟨hs, hno⟩
    refine ⟨hs, fun hl => ?_⟩
    by_contra hb
    exact hno ⟨hblocked.2 hb, hl.fits⟩
  unfold Accounts at hload
  rw [hafter] at hload
  unfold elfLoad
  rw [heh, ok_bind]
  refine (hload.mono ?_ fun _ h => h).bind ?_
  · intro e he
    refine ⟨fun hw => ?_, fun hl hb _ => he.2 hl.headers ⟨hblocked.2 hb, hl.fits⟩⟩
    obtain ⟨p, hp, hc⟩ := he.1 hw
    exact hc.imp (fun hc => ⟨p, hp, hc⟩) fun hc => ⟨p, hp, hc⟩
  rintro ⟨d, s⟩ ⟨htrue, hfalse⟩
  cases d with
  | false => exact meets_ok ((hfalse rfl).imp (fun hc => ⟨rfl, hc⟩) fun hs => .inl (hspilt hs))
  | true =>
    simp only [Bool.not_true, Bool.false_eq_true, if_false]
    rcases htrue rfl with ⟨⟨hread, hbase, hfits⟩, hs⟩ | hs
    · cases hentry : img.field 8 24#64 with
      | error e =>
        refine meets_error ⟨fun hw => ?_, fun _ _ hc => ?_⟩
        · exact absurd (hw ▸ (img.field_meets 8 24#64).stop hentry) fun hc => by cases hc
        · obtain ⟨n, hn⟩ := hc
          cases hn
      | ok n => exact meets_ok (.inr (.inr ⟨⟨hread, hfits⟩, hblocked.1 hbase, hs, n, rfl, rfl⟩))
    · exact ⟨fun _ => .inr (.inl (hspilt hs)),
        fun _ => ⟨fun _ => .inr hs.1, fun hl hb _ => absurd ((hspilt hs).2 hl) hb⟩⟩

theorem UserSegments.within (huser : UserSegments img) (heh : header img = .ok (some eh)) :
    ∀ ph ∈ segments img eh (List.range eh.phnum), ∀ va ∈ ph.pages, Kern.Within lowerHalf va := by
  intro ph hph va hva
  obtain ⟨i, hi, hseg⟩ := mem_segments.1 hph
  exact Kern.within_user ((huser eh heh i (mem_range.1 hi) ph hseg).page hva)

/-- **`elf_load`** in a new space never goes on with page 0. -/
theorem elfLoad_account (h : k.FreshSpace) (huser : UserSegments img) (heh : header img = .ok (some eh)) :
    Meets (elfLoad img k)
      (fun e => e ≠ .wild ∧ (Loadable img eh → (∃ n, img.field 8 24#64 = .ok n) →
        k.pmm.freeSet.card < cost .fresh (imagePages img eh).reverse))
      fun r => r.1 = 0 ∧ k.pmm.freeSet.card < cost .fresh (imagePages img eh).reverse ∨
        Loadable img eh ∧ Stocked lowerHalf .fresh k r.2.kern (imagePages img eh).reverse ∧
          ∃ n, img.field 8 24#64 = .ok n ∧ r.1 = BitVec.ofNat 64 n := by
  have hblocked : ¬ Blocked .fresh img eh := fun ⟨_, _, hc⟩ => hc
  have hspilling : ¬ Spilling .fresh img eh := fun ⟨_, _, _, hc⟩ => Kern.not_spills_fresh hc
  refine (elfLoad_accounts h.stockedFresh Kern.lowerHalf_nodup h.cr3 heh (huser.within heh)).mono
    (fun e he => ⟨fun hw => ?_, fun hl => ?_⟩) fun r hr => hr.imp_right fun hr => ?_
  · exact (he.1 hw).elim hblocked hspilling
  · exact he.2 hl hblocked
  · obtain ⟨hl, -, hs, hn⟩ := hr.resolve_left fun hc => hspilling hc.1
    exact ⟨hl, hs, hn⟩

/-- a load that returns an entry point has accepted the header -/
theorem header_of_entry {entry : U64} {l : Load} (hload : elfLoad img k = .ok (entry, l)) (h0 : entry ≠ 0) :
    ∃ eh, header img = .ok (some eh) := by
  obtain ⟨o, hheader, hload⟩ := bind_ok.1 hload
  cases o with
  | none =>
    cases hload
    exact absurd rfl h0
  | some eh => exact ⟨eh, hheader⟩

theorem elfLoad_notWild (h : k.FreshSpace) (huser : UserSegments img) : elfLoad img k ≠ .error .wild := by
  intro hrun
  cases hheader : header img with
  | error e =>
    unfold elfLoad at hrun
    rw [hheader] at hrun
    cases hrun
    exact absurd ((header_meets img).stop hheader) fun hc => by cases hc
  | ok o =>
    cases o with
    | none =>
      unfold elfLoad at hrun
      rw [hheader, ok_bind] at hrun
      cases hrun
    | some eh => exact ((elfLoad_account h huser hheader).stop hrun).1 rfl

end Load

end Elf

end Uix
