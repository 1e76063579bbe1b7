/-
One program, two memories. `user_task_create` and `do_execve` do the same in two kernels that differ in the contents of
free pages only, and start the program in the same pages. They clear neither the stack nor the rest of the last page of
a flat image, so there the program reads what the pages held before. Which pages these are is known from the allocator
before the load: `RawAgree` names them without a look at the tables that the load makes.

What lies around a file in memory may be free pages too, so it may differ; then `elf_load` must not read outside the
file.

- `teardown_twin`, `findProgram_twin`, `newSpace_twin`: the steps of `do_execve` in both kernels.
- `Loaded.views_iff`: what the program reads, by the pages that the allocator hands out.
- `image_reveals_raw_bytes`: the program reads the same in both if and only if the bytes that the loader does not store
  were the same before.
- `old_byte_revealed`: a program reads the byte that a free page held.
-/
import Uix.Cpu.LivePages
import Uix.Cpu.TwinImage

namespace Uix

open Machine Radix Radix.Format Bytes List Function Kern
open Pmm (pageIdx pageAddr Takes)

/-- `k'` is `k` with other bytes in free pages -/
structure FreeDiffer (k k' : Kern) : Prop where
  rest : k' = { k with mem := k'.mem }
  used : ∀ f, f ∉ k.pmm.freeSet → k'.mem f = k.mem f

/-- a program reads the same in both memories -/
def ReadsSame (m m' : PhysMem) (root : ℕ) : Prop := ∀ va : UserAddr, userByte m' root va.1 = userByte m root va.1

/-- the pages `pages` of a new space come from the allocator `p`, one after the other, each after the tables that are
missing on the way to it: at the addresses outside `C` they held the same bytes in `m` and `m'` -/
def RawAgree (C : UserAddr → Prop) (p : Pmm) (pages : List U64) (m m' : PhysMem) : Prop :=
  ∀ pre va post, pages = pre ++ va :: post → ∀ x : UserAddr, vpage x.1 = vpage va → ¬ C x →
    getByte (m' (p.nth (cost .fresh pre.reverse))) (x.1.toNat % pageSize) =
      getByte (m (p.nth (cost .fresh pre.reverse))) (x.1.toNat % pageSize)

theorem rawAgree_congr {C : UserAddr → Prop} {p : Pmm} {pages : List U64} {m m' m₁ m₁' : PhysMem}
    (h : ∀ pre va post, pages = pre ++ va :: post →
    m₁ (p.nth (cost .fresh pre.reverse)) = m (p.nth (cost .fresh pre.reverse)) ∧
      m₁' (p.nth (cost .fresh pre.reverse)) = m' (p.nth (cost .fresh pre.reverse))) :
    RawAgree C p pages m₁ m₁' ↔ RawAgree C p pages m m' := by
  refine forall₄_congr fun pre va post hp => ?_
  rw [(h pre va post hp).1, (h pre va post hp).2]

namespace Kern

section Both

variable {k₀ k₀' k k' : Kern} {C : UserAddr → Prop} {cr3 : PAddr} {pages pre post : List U64} {va : U64}

theorem rest_of_regs (hpmm : k'.pmm = k.pmm) (hregs : SameRegs k k') :
    k' = { k with mem := k'.mem } := by
  obtain ⟨m, p, a, b, c⟩ := k
  obtain ⟨m', p', a', b', c'⟩ := k'
  obtain ⟨h1, h2, h3⟩ := hregs
  simp only at hpmm h1 h2 h3
  subst hpmm h1 h2 h3
  rfl

/-- the page at an address, by its place in the order of the allocator -/
theorem Stocked.placed {x : U64} (h : Stocked lowerHalf .fresh k₀ k pages.reverse) (hp : pages = pre ++ va :: post)
    (hx : vpage x = vpage va) : idx x 3 ∈ lowerHalf ∧
      ∃ e, paging.walk k.mem 3 k₀.pml4 (idx x) = some (0, e) ∧ frame e = k₀.pmm.nth (cost .fresh pre.reverse) := by
  obtain ⟨hlow, e, hw, -, hnth, -⟩ := h.own post.reverse va pre.reverse (by
    rw [hp, reverse_append, reverse_cons, append_assoc, singleton_append])
  have hidx := vpage_eq_iff.1 hx
  exact ⟨by rw [hidx 3 le_rfl]; exact hlow, e, (walk_index hidx).trans hw, hnth⟩

variable {c : Contents}

/-- it was free -/
theorem Loaded.nth_free (h : Loaded k₀ k c pages) (hp : pages = pre ++ va :: post) :
    k₀.pmm.nth (cost .fresh pre.reverse) ∈ k₀.pmm.freeSet := by
  obtain ⟨S, F⟩ := h.seen.fill
  obtain ⟨hlow, e, hw, hnth⟩ := h.stocked.placed hp rfl
  rw [← hnth]
  exact F.takes.sub (F.pages _ (frame_mem_frames (p := (0, e)) hlow hw))

/-- what the program reads in it -/
theorem Loaded.read (h : Loaded k₀ k c pages) (hp : pages = pre ++ va :: post) {x : UserAddr}
    (hx : vpage x.1 = vpage va) : userByte k.mem k₀.pml4 x.1 =
      some ((c x).getD (getByte (k₀.mem (k₀.pmm.nth (cost .fresh pre.reverse))) (x.1.toNat % pageSize))) := by
  obtain ⟨-, e, hw, hnth⟩ := h.stocked.placed hp hx
  rw [h.seen.read x, hw, Option.map_some, hnth]

/-- **What the program reads** in both kernels. -/
theorem Loaded.views_iff (h : Loaded k₀ k c pages) (h' : Loaded k₀' k' c pages)
    (hrest : k₀' = { k₀ with mem := k₀'.mem })
    (hC : ∀ x, c x ≠ none ↔ C x) : ReadsSame k.mem k'.mem k₀.pml4 ↔ RawAgree C k₀.pmm pages k₀.mem k₀'.mem := by
  have hread' : ∀ {pre va post}, pages = pre ++ va :: post → ∀ {x : UserAddr}, vpage x.1 = vpage va →
      userByte k'.mem k₀.pml4 x.1 =
        some ((c x).getD (getByte (k₀'.mem (k₀.pmm.nth (cost .fresh pre.reverse))) (x.1.toNat % pageSize))) := by
    intro pre va post hp x hx
    have := h'.read hp hx
    rwa [show k₀'.pml4 = k₀.pml4 by rw [hrest], show k₀'.pmm = k₀.pmm by rw [hrest]] at this
  constructor
  · intro hsame pre va post hp x hx hno
    have hva := hsame x
    rw [hread' hp hx, h.read hp hx, not_ne_iff.1 (mt (hC x).1 hno)] at hva
    exact Option.some.inj hva
  · intro hraw x
    by_cases hcov : Covered pages.reverse x.1
    · obtain ⟨va, hva, hx⟩ := hcov
      obtain ⟨pre, post, hp⟩ := append_of_mem (mem_reverse.1 hva)
      rw [hread' hp hx, h.read hp hx]
      cases hc : c x with
      | some b => rfl
      | none => exact congrArg some (hraw pre va post hp x hx fun hx => (hC x).2 hx hc)
    · have hnone : ∀ {k₁ k₂ : Kern}, Loaded k₁ k₂ c pages → userByte k₂.mem k₁.pml4 x.1 = none := fun L => by
        obtain ⟨S, F⟩ := L.seen.fill
        refine (F.view_eq_none x).2 (by_contra fun hw => ?_)
        exact hcov (((L.stocked.mapped x.1 x.lower).1 hw).resolve_left not_false)
      have := hnone h'
      rw [show k₀'.pml4 = k₀.pml4 by rw [hrest]] at this
      rw [this, hnone h]

/-- programs that run already see no difference -/
theorem Spaces.view_differ {roots : List ℕ} {r : ℕ} (h : Spaces k roots) (hr : r ∈ roots) (hd : FreeDiffer k k')
    (va : UserAddr) : userByte k'.mem r va.1 = userByte k.mem r va.1 := by
  have hA : ∀ r ∈ roots, Agree paging k.mem k'.mem 3 r lowerHalf := fun r hr => .of_tables fun g hg =>
    hd.used g (h.trees.used g (mem_forest.2 ⟨r, hr, hg⟩))
  have hpmm : k'.pmm = k.pmm := by rw [hd.rest]
  have h' : Spaces k' roots := by
    refine h.agree (S := ∅) hA ?_ fun f hf => ?_
    · rw [hpmm]
      exact .refl h.trees.pmm
    · rw [hpmm]
      exact hf
  exact h.view_agree h' hr (hA r hr) (fun f hf => hd.used f (h.used r hr f hf)) va

/-- taking a page in both -/
theorem follows_alloc {α β : Type} {f : PAddr × Kern → Except Stop α} {g : PAddr × Kern → Except Stop β}
    {Q : α → β → Prop}
    (h : k.pmm.Ok) (hpmm : k'.pmm = k.pmm) (h0 : k.pmm.freeSet = ∅ → Follows (f (0, k)) (g (0, k')) Q)
    (h1 : ∀ t p, t ∈ k.pmm.freeSet → pageAddr t ≠ 0 → Takes k.pmm {t} p →
      Follows (f (pageAddr t, k.setPmm p)) (g (pageAddr t, k'.setPmm p)) Q) :
    Follows (k.pmmAlloc >>= f) (k'.pmmAlloc >>= g) Q := by
  obtain ⟨pa, p, hrun, hcase⟩ := Pmm.pmmAlloc_spec h
  have hk : k.pmmAlloc = .ok (pa, k.setPmm p) := by rw [pmmAlloc, hrun]; rfl
  have hk' : k'.pmmAlloc = .ok (pa, k'.setPmm p) := by rw [pmmAlloc, hpmm, hrun]; rfl
  rw [hk, hk', ok_bind, ok_bind]
  rcases hcase with ⟨rfl, rfl, hf⟩ | ⟨t, ht, rfl, hT⟩
  · have : k'.setPmm k.pmm = k' := by rw [← hpmm]; rfl
    rw [this]
    exact h0 hf
  · exact h1 t p ht (Pmm.pageIdx_of_free h ht).1 hT

/-- `vmm_create_space` takes one page -/
theorem vmmCreateSpace_pmm (h : k.vmmCreateSpace = .ok (cr3, k')) : k'.pmm = k.pmm.skip 1 := by
  obtain ⟨⟨pa, k1⟩, halloc, h⟩ := bind_ok.1 h
  obtain ⟨⟨pa', p⟩, hrun, halloc⟩ := bind_ok.1 halloc
  cases halloc
  dsimp only at h
  by_cases h0 : pa = 0
  · rw [if_pos h0] at h
    cases h
  · rw [if_neg h0] at h
    cases h
    rw [(copyUpper_rest _ _).1]
    change p = k.pmm.handOut.2
    rw [Pmm.handOut, hrun]

/-- **`vmm_create_space`** in both. -/
theorem vmmCreateSpace_twin (hk : k.pmm.Ok) (hrest : k' = { k with mem := k'.mem }) :
    Follows k.vmmCreateSpace k'.vmmCreateSpace fun a b => b.1 = a.1 ∧ b.2 = { a.2 with mem := b.2.mem } ∧
      ∃ d, a.1 = pageAddr d ∧ SpaceCreated k a.2 d ∧ SpaceCreated k' b.2 d := by
  have hpmm : k'.pmm = k.pmm := by rw [hrest]
  have hstep : Follows k.vmmCreateSpace k'.vmmCreateSpace fun a b => b.1 = a.1 ∧ b.2.pmm = a.2.pmm := by
    unfold vmmCreateSpace
    refine follows_alloc hk hpmm (fun _ => follows_error) fun t p _ h0 _ => ?_
    simp only [if_neg h0]
    refine follows_ok ⟨rfl, ?_⟩
    rw [(copyUpper_rest _ _).1, (copyUpper_rest _ _).1]
    rfl
  refine hstep.mono ?_
  rintro ⟨pa, k1⟩ ⟨pa', k1'⟩ h1 h1' ⟨rfl, hpmm1⟩
  obtain ⟨d, hd, C⟩ := (vmmCreateSpace_spec hk).of_eq h1
  obtain ⟨d', hd', C'⟩ := (vmmCreateSpace_spec (hpmm ▸ hk)).of_eq h1'
  dsimp only at hd hd' C C' hpmm1
  have hsmall : ∀ {n}, n ∈ k.pmm.freeSet → n < 2 ^ 52 := fun hn => Pmm.lt_of_free hn hk.small
  obtain rfl : d' = d := by
    rw [← Pmm.pageIdx_pageAddr (hsmall C.fresh), ← hd, hd', Pmm.pageIdx_pageAddr (hsmall (hpmm ▸ C'.fresh))]
  refine ⟨rfl, rest_of_regs hpmm1 ?_, d', hd, C, C'⟩
  obtain ⟨h1, h2, h3⟩ := C.regs
  obtain ⟨h1', h2', h3'⟩ := C'.regs
  rw [SameRegs, h1, h2, h3, h1', h2', h3', hrest]
  exact ⟨rfl, rfl, rfl⟩

/-- **`user_task_create`** in both. -/
theorem userTaskImage_twin {img : Image} (hk : k.pmm.Ok) (hphys : k.pmm.bitmapLen ≤ 2 ^ 40)
    (hsize : img.len.toNat + 0x400000 ≤ 2 ^ 47) (hbytes : img.Readable) (hd : FreeDiffer k k') :
    Follows (userTaskImage img k) (userTaskImage img k') fun a b => b.1 = a.1 ∧
      (ReadsSame a.2.mem b.2.mem (frame a.1) ↔
        RawAgree (Span 0x400000 img.len.toNat) (k.pmm.skip 1) (flatPages img.len ++ stackPages) k.mem k'.mem) := by
  have hpmm : k'.pmm = k.pmm := by rw [hd.rest]
  unfold userTaskImage
  refine (vmmCreateSpace_twin hk hd.rest).bind ?_
  rintro ⟨cr3, k1⟩ ⟨cr3', k1'⟩ hcreate - ⟨rfl, hrest, d, rfl, C, C'⟩
  dsimp only at hrest C C' ⊢
  obtain ⟨hfresh, hroot⟩ := C.freshSpace hphys
  obtain ⟨hfresh', hroot'⟩ := C'.freshSpace (hpmm ▸ hphys)
  have hd40 := Pmm.lt_of_free C.fresh hphys
  have hrest1 : k1'.vmmSwitch (pageAddr d) =
      { k1.vmmSwitch (pageAddr d) with mem := (k1'.vmmSwitch (pageAddr d)).mem } := by
    rw [hrest]
    rfl
  have hflat := hfresh.flat hsize hbytes
  have hflat' := hfresh'.flat hsize hbytes
  rw [show (k1'.vmmSwitch (pageAddr d)).pmm = (k1.vmmSwitch (pageAddr d)).pmm by rw [hrest1]] at hflat'
  rw [← bind_assoc, ← bind_assoc]
  refine Follows.bind (P := fun _ _ => True) (fun k3 hrun => ?_) fun k3 k3' hrun hrun' _ => follows_ok ⟨rfl, ?_⟩
  · obtain ⟨k3', hrun', -⟩ := hflat'.ok (hflat.ok_iff.1 ⟨k3, hrun⟩)
    exact ⟨k3', hrun', trivial⟩
  have L := hfresh.loaded hsize hbytes hrun
  have hviews := L.views_iff (hfresh'.loaded hsize hbytes hrun') hrest1 fun x =>
    show _ ↔ Span 0x400000 img.len.toNat x from patch_ne_none.trans (or_iff_left fun hc => hc rfl)
  have hpmm1 : (k1.vmmSwitch (pageAddr d)).pmm = k.pmm.skip 1 := (vmmCreateSpace_pmm hcreate : k1.pmm = _)
  rw [hroot, hpmm1] at hviews
  rw [frame_pageAddr hd40]
  refine hviews.trans (rawAgree_congr fun pre va post hp => ?_)
  have hfree := L.nth_free hp
  rw [hpmm1] at hfree
  have hne : (k.pmm.skip 1).nth (cost .fresh pre.reverse) ≠ d := fun hc => by
    refine C.takes.draws.taken_notMem_free (Finset.mem_singleton_self d) ?_
    rw [vmmCreateSpace_pmm hcreate, ← hc]
    exact hfree
  exact ⟨C.other _ hne, C'.other _ hne⟩

/-! ## The teardown in both -/

/-- a step on the allocator only -/
theorem follows_pmm {x : Pmm → Except Stop Pmm} {p : Pmm} :
    Follows (x p >>= fun q => pure (k.setPmm q)) (x p >>= fun q => pure (k'.setPmm q)) fun a b =>
      ∃ q, a = k.setPmm q ∧ b = k'.setPmm q := by
  refine Follows.bind (P := fun q q' => q' = q) (fun q hq => ⟨q, hq, rfl⟩) ?_
  rintro q q' - - rfl
  exact follows_ok ⟨q', rfl, rfl⟩

theorem follows_drops {its : List Item} (hpmm : k'.pmm = k.pmm) :
    Follows (its.foldlM drop k) (its.foldlM drop k') fun a b => ∃ q, a = k.setPmm q ∧ b = k'.setPmm q := by
  refine foldlM_follows (fun _ a b => ∃ q, a = k.setPmm q ∧ b = k'.setPmm q) ⟨k.pmm, rfl, by rw [← hpmm]; rfl⟩ ?_
  rintro - it - _ _ - ⟨q, rfl, rfl⟩
  cases it with
  | table pa => exact @follows_pmm k k' (Pmm.pmmFree · pa) q
  | page pa => exact @follows_pmm k k' (Pmm.pmmUnref · pa) q

/-- the items depend on the tables only -/
theorem drops_congr {m m' : PhysMem} {l f : ℕ} {i : Fin 512} (hplain : ∀ p ∈ paging.leavesAt m l f i, p.1 = 0)
    (hrow : m' f = m f) (hbelow : ∀ g ∈ paging.tablesAt m l f i, m' g = m g) : drops m' l f i = drops m l f i := by
  induction l generalizing f i with
  | zero => rw [drops, drops, hrow]
  | succ l ih =>
    rw [drops, drops, hrow]
    cases hl : paging.link l (m f i) with
    | true =>
      rw [leavesAt_link hl] at hplain
      rw [tablesAt_link hl] at hbelow
      have hsub : ∀ j, drops m' l (frame (m f i)) j = drops m l (frame (m f i)) j := fun j => by
        refine ih (fun p hp => hplain p (mem_flatMap.2 ⟨j, mem_finRange j, hp⟩)) (hbelow _ mem_cons_self) ?_
        exact fun g hg => hbelow g (mem_cons_of_mem _ (mem_flatMap.2 ⟨j, mem_finRange j, hg⟩))
      rw [flatMap_congr fun j _ => hsub j]
    | false =>
      cases hp : has (m f i) vmmPresent with
      | false => rw [if_neg (by decide), if_neg (by decide)]
      | true =>
        refine absurd (hplain (l + 1, m f i) ?_) (Nat.succ_ne_zero l)
        rw [Format.leavesAt, Format.gather, hl, if_neg (by decide), if_pos (show paging.present (m f i) = true from hp)]
        exact mem_singleton_self _

/-- **The teardown** gives back the same pages in both. -/
theorem teardown_twin (h0 : cr3 ≠ 0) (hplain : ∀ p ∈ paging.leaves k.mem 3 (pageIdx cr3) lowerHalf, p.1 = 0)
    (hpmm : k'.pmm = k.pmm) (htables : ∀ g ∈ paging.tables k.mem 3 (pageIdx cr3) lowerHalf, k'.mem g = k.mem g) :
    Follows (teardown cr3 k) (teardown cr3 k') fun a b =>
      ∃ q, a = (k.vmmSwitch cr3).setPmm q ∧ b = (k'.vmmSwitch cr3).setPmm q := by
  have hitems : lowerHalf.flatMap (drops k'.mem 3 (pageIdx cr3)) = lowerHalf.flatMap (drops k.mem 3 (pageIdx cr3)) := by
    refine flatMap_congr fun i hi => ?_
    refine drops_congr (fun p hp => hplain p (mem_flatMap.2 ⟨i, hi, hp⟩)) (htables _ mem_cons_self) ?_
    exact fun g hg => htables g (mem_cons_of_mem _ (mem_flatMap.2 ⟨i, hi, hg⟩))
  rw [teardown_eq h0, teardown_eq h0, hitems]
  exact follows_drops hpmm

end Both

end Kern

/-! ## Files in both -/

namespace Uixfs

variable {fs : Uixfs} {k k' : Kern} {disk : Disk} {size : ℕ}

theorem fileBufFree_twin (hpmm : k'.pmm = k.pmm) :
    Follows (fs.fileBufFree k) (fs.fileBufFree k') fun a b => b.1 = a.1 ∧ ∃ q, a.2 = k.setPmm q ∧
    b.2 = k'.setPmm q := by
  have hself : ∃ q, k = k.setPmm q ∧ k' = k'.setPmm q := ⟨k.pmm, rfl, by rw [← hpmm]; rfl⟩
  unfold fileBufFree
  cases fs.fileBuf with
  | none => exact follows_ok ⟨rfl, hself⟩
  | some pa =>
    refine Follows.bind (P := fun a b => ∃ q, a = k.setPmm q ∧ b = k'.setPmm q) ?_ fun a b _ _ h => follows_ok ⟨rfl, h⟩
    refine foldlM_follows (fun _ a b => ∃ q, a = k.setPmm q ∧ b = k'.setPmm q) hself ?_
    rintro - i - _ _ - ⟨q, rfl, rfl⟩
    exact @Kern.follows_pmm k k' (Pmm.pmmFree · (pa + BitVec.ofNat 64 (i * pageSize))) q

theorem fileBufAlloc_twin (hpmm : k'.pmm = k.pmm) :
    Follows (fs.fileBufAlloc k size) (fs.fileBufAlloc k' size) fun a b =>
      b.1 = a.1 ∧ b.2.1 = a.2.1 ∧ ∃ q, a.2.2 = k.setPmm q ∧ b.2.2 = k'.setPmm q := by
  refine (fileBufFree_twin hpmm).bind ?_
  rintro ⟨fs1, k1⟩ ⟨fs1', k1'⟩ - - ⟨rfl, q, hq, hq'⟩
  dsimp only at hq hq' ⊢
  subst hq hq'
  refine Follows.bind (P := fun a b => b.1 = a.1 ∧ ∃ q, a.2 = k.setPmm q ∧ b.2 = k'.setPmm q) ?_ ?_
  · refine Follows.bind (P := fun a b => b = a) (fun a ha => ⟨a, ha, rfl⟩) ?_
    rintro ⟨pa, p⟩ _ - - rfl
    exact follows_ok ⟨rfl, p, rfl, rfl⟩
  · rintro ⟨pa, k2⟩ ⟨pa', k2'⟩ - - ⟨rfl, h⟩
    dsimp only at h ⊢
    split_ifs
    · exact follows_ok ⟨rfl, rfl, h⟩
    · exact follows_ok ⟨rfl, rfl, h⟩

/-- the bytes read are the same -/
theorem readChunks_twin {buf : PAddr} {n lba done : ℕ} (hrest : k' = { k with mem := k'.mem })
    (hdone : ∀ x < done, byteAt k'.mem (buf.toNat + x) = byteAt k.mem (buf.toNat + x)) :
    Follows (readChunks disk buf size n lba done fs k) (readChunks disk buf size n lba done fs k') fun a b =>
      b.1 = a.1 ∧ b.2.1 = a.2.1 ∧ b.2.2 = { a.2.2 with mem := b.2.2.mem } ∧
        (a.1 = true → ∀ x < size, byteAt b.2.2.mem (buf.toNat + x) = byteAt a.2.2.mem (buf.toNat + x)) := by
  induction n generalizing lba done fs k k' with
  | zero => exact follows_error
  | succ n ih =>
    rw [readChunks, readChunks]
    by_cases hd : done < size
    · rw [if_pos hd, if_pos hd]
      cases disk lba with
      | none => exact follows_ok ⟨rfl, rfl, hrest, fun hc => absurd hc Bool.false_ne_true⟩
      | some s =>
        refine ih ?_ fun x hx => ?_
        · rw [storeBytes_rest, storeBytes_rest k, hrest]
        · rw [byteAt_storeBytes, byteAt_storeBytes]
          generalize (if 512 < size - done then 512 else size - done) = c at hx ⊢
          split_ifs with h1
          · rfl
          · exact hdone x (by omega)
    · rw [if_neg hd, if_neg hd]
      exact follows_ok ⟨rfl, rfl, hrest, fun _ x hx => hdone x (by omega)⟩

/-- **`uixfs_read`** in both. -/
theorem uixfsRead_twin {name : List (BitVec 8)} (hrest : k' = { k with mem := k'.mem }) :
    Follows (fs.uixfsRead disk name k) (fs.uixfsRead disk name k') fun a b =>
      b.1 = a.1 ∧ b.2.1 = a.2.1 ∧ b.2.2.1 = a.2.2.1 ∧ b.2.2.2 = { a.2.2.2 with mem := b.2.2.2.mem } ∧
        ∀ buf, a.2.1 = some buf → ∀ x < a.1.toNat,
          byteAt b.2.2.2.mem (buf.toNat + x) = byteAt a.2.2.2.mem (buf.toNat + x) := by
  unfold uixfsRead
  cases fs.mounted with
  | false => exact follows_ok ⟨rfl, rfl, rfl, hrest, fun _ hc => by cases hc⟩
  | true =>
    simp only [Bool.not_true, Bool.false_eq_true, if_false]
    cases fs.lookup name with
    | none => exact follows_ok ⟨rfl, rfl, rfl, hrest, fun _ hc => by cases hc⟩
    | some i =>
      refine (fileBufAlloc_twin (by rw [hrest])).bind ?_
      rintro ⟨buf, fs1, k1⟩ ⟨buf', fs1', k1'⟩ - - ⟨h1, h2, q, h3, h4⟩
      dsimp only at h1 h2 h3 h4 ⊢
      subst h1 h2 h3 h4
      have hrest1 : k'.setPmm q = { k.setPmm q with mem := (k'.setPmm q).mem } := by
        rw [hrest]
        rfl
      cases buf' with
      | none => exact follows_ok ⟨rfl, rfl, rfl, hrest1, fun _ hc => by cases hc⟩
      | some buf =>
        refine (readChunks_twin hrest1 fun x hx => absurd hx (Nat.not_lt_zero x)).bind ?_
        rintro ⟨d, fs2, k2⟩ ⟨d', fs2', k2'⟩ - - ⟨h1, h2, hrest2, hbytes⟩
        dsimp only at h1 h2 hrest2 hbytes ⊢
        subst h1 h2
        cases d' with
        | false => exact follows_ok ⟨rfl, rfl, rfl, hrest2, fun _ hc => by cases hc⟩
        | true =>
          refine follows_ok ⟨rfl, rfl, rfl, hrest2, fun b hb x hx => ?_⟩
          cases hb
          exact hbytes rfl x hx

end Uixfs

/-! ## `do_execve` in both -/

namespace Exec

variable {env env' : ExecEnv} {path : List (BitVec 8)} {s s' : ExecState}

/-- the same program, from the same place -/
def SameProgram (p q : Image × Bool) : Prop := p.1.Same q.1 ∧ q.2 = p.2

/-- **The program found** is the same, whatever lies around the file buffer. -/
theorem findProgram_twin (henv : env' = { env with stray := env'.stray }) (hs : s' = { s with kern := s'.kern })
    (hrest : s'.kern = { s.kern with mem := s'.kern.mem }) :
    Follows (findProgram env path s) (findProgram env' path s') fun a b => Option.Rel SameProgram a.1 b.1 ∧
      b.2 = { a.2 with kern := b.2.kern } ∧ b.2.kern = { a.2.kern with mem := b.2.kern.mem } := by
  have hself : ∀ img b, Option.Rel SameProgram (some (img, b)) (some (img, b)) := fun img b =>
    .some ⟨⟨rfl, fun _ _ => rfl⟩, rfl⟩
  unfold findProgram
  rw [show env'.sh = env.sh by rw [henv], show env'.hello2 = env.hello2 by rw [henv],
    show env'.disk = env.disk by rw [henv]]
  split_ifs
  · exact follows_ok ⟨hself _ _, hs, hrest⟩
  · exact follows_ok ⟨hself _ _, hs, hrest⟩
  · rw [show s'.fs = s.fs by rw [hs]]
    refine (Uixfs.uixfsRead_twin hrest).bind ?_
    rintro ⟨r, buf, fs, k⟩ ⟨r', buf', fs', k'⟩ - - ⟨h1, h2, h3, hrest1, hbytes⟩
    dsimp only at h1 h2 h3 hrest1 hbytes ⊢
    subst h1 h2 h3
    have hs1 : { s' with fs := fs', kern := k' } = ({ s with fs := fs', kern := k' } : ExecState) := by rw [hs]
    cases buf' with
    | none => exact follows_ok ⟨.none, hs1, hrest1⟩
    | some buf =>
      dsimp only
      split_ifs with h0
      · exact follows_ok ⟨.none, hs1, hrest1⟩
      · refine follows_ok ⟨.some ⟨⟨rfl, fun off hoff => ?_⟩, rfl⟩, hs1, hrest1⟩
        have hlt : off.toNat < r'.toNat := by
          have := BitVec.lt_def.1 hoff
          rw [diskImage, BitVec.toNat_ofNat] at this
          exact this.trans_le (Nat.mod_le _ _)
        rw [Image.get, Image.get, diskImage, diskImage]
        dsimp only
        rw [if_pos hlt, if_pos hlt, hbytes buf rfl _ hlt]

/-- the new spaces are alike, and other pages are as before -/
structure AlikeSpaces (s s' a b : ExecState) : Prop where
  state : b = { a with kern := b.kern }
  fs : a.fs = s.fs
  rest : b.kern = { a.kern with mem := b.kern.mem }
  other : ∀ f, f ≠ a.kern.pml4 → a.kern.mem f = s.kern.mem f ∧ b.kern.mem f = s'.kern.mem f
  fresh : a.kern.FreshSpace ∧ b.kern.FreshSpace
  root : frame a.task.cr3 = a.kern.pml4
  live : Live s.fs a.kern [a.kern.pml4]

/-- **A new space** in both. -/
theorem newSpace_twin (h : Caller s) (hs : s' = { s with kern := s'.kern })
    (hrest : s'.kern = { s.kern with mem := s'.kern.mem })
    (htables : ∀ g ∈ paging.tables s.kern.mem 3 (pageIdx s.task.cr3) lowerHalf, s'.kern.mem g = s.kern.mem g) :
    Follows (newSpace s) (newSpace s') (AlikeSpaces s s') := by
  have hr : pageIdx s.task.cr3 ∈ [pageIdx s.task.cr3] := mem_singleton_self _
  have hpages : ∀ g ∈ paging.tables s.kern.mem 3 (pageIdx s.task.cr3) lowerHalf, g ≠ 0 := fun g hg =>
    (h.live.tables g (mem_forest.2 ⟨_, hr, hg⟩)).1
  obtain ⟨p, hrun, F⟩ := teardown_spec h.live.spaces hr h.cr3_ne_zero hpages fun f hf => (h.live.pages _ hr f hf).1
  have hplain : ∀ e ∈ paging.leaves s.kern.mem 3 (pageIdx s.task.cr3) lowerHalf, e.1 = 0 := fun e he =>
    (h.live.spaces.plain _ hr e he).1
  have hstep : Follows (newSpace s) (newSpace s') fun a b => b = { a with kern := b.kern } ∧
      b.kern = { a.kern with mem := b.kern.mem } ∧
      (∀ f, f ≠ a.kern.pml4 → a.kern.mem f = s.kern.mem f ∧ b.kern.mem f = s'.kern.mem f) ∧ b.kern.FreshSpace := by
    unfold newSpace
    rw [show s'.task = s.task by rw [hs]]
    refine (teardown_twin h.cr3_ne_zero hplain (by rw [hrest]) htables).bind ?_
    rintro _ _ hrun' - ⟨q, rfl, rfl⟩
    obtain rfl : p = q := congrArg pmm (Except.ok.inj (hrun.symm.trans hrun'))
    have hphys : p.bitmapLen ≤ 2 ^ 40 := F.len ▸ h.live.spaces.trees.phys
    refine Follows.bind (@Kern.vmmCreateSpace_twin ((s.kern.vmmSwitch s.task.cr3).setPmm p)
      ((s'.kern.vmmSwitch s.task.cr3).setPmm p) F.ok (by rw [hrest]; rfl)) ?_
    rintro ⟨cr3, k⟩ ⟨cr3', k'⟩ - - ⟨h1, hrest1, d, h2, C, C'⟩
    dsimp only at h1 h2 hrest1 C C' ⊢
    subst h1 h2
    obtain ⟨-, hroot⟩ := C.freshSpace hphys
    obtain ⟨hfresh, -⟩ := C'.freshSpace hphys
    refine follows_ok ⟨by rw [hs], by rw [hrest1]; rfl, fun f hf => ?_, hfresh⟩
    rw [hroot] at hf
    exact ⟨C.other f hf, C'.other f hf⟩
  obtain ⟨t, d, hnew, N⟩ := newSpace_spec h.live h.cr3_ne_zero fun r hr => absurd hr not_mem_nil
  refine hstep.mono ?_
  rintro a b ha - ⟨hstate, hrest1, hother, hfresh⟩
  obtain rfl : a = t := Except.ok.inj (ha.symm.trans hnew)
  refine ⟨hstate, N.fs, hrest1, hother, ⟨N.fresh, hfresh⟩, ?_, ?_⟩
  · rw [N.task, N.root]
    exact frame_pageAddr N.small
  · rw [N.root]
    exact N.lives.live

/-- **`do_execve`** in both, for the same program. -/
theorem doExecve_twin {trampoline upath entry rsp : U64} {copied : List (BitVec 8)} {img : Image} {fromDisk : Bool}
    {s1 s2 t : ExecState} (h : Caller s) (henv : env' = { env with stray := env'.stray })
    (hs : s' = { s with kern := s'.kern })
    (hd : FreeDiffer s.kern s'.kern) (hcopy : copyPath s.kern 63 upath = .ok copied)
    (hcopy' : copyPath s'.kern 63 upath = .ok copied)
    (hfind : findProgram env (pathString env.stale copied) s = .ok (some (img, fromDisk), s1))
      (hnew : newSpace s1 = .ok s2)
    (himg : UserImage img) (hbytes : img.Readable) (hin : Elf.ReadsInside img)
    (hrun : doExecve env trampoline upath s = .ok (.launched entry rsp, t)) :
    ∃ t', doExecve env' trampoline upath s' = .ok (.launched entry rsp, t') ∧ t'.task = t.task ∧
      (ReadsSame t.kern.mem t'.kern.mem (frame t.task.cr3) ↔ RawAgree (Supplied img (pathString env.stale copied))
        s2.kern.pmm (filePages img ++ stackPages) s.kern.mem s'.kern.mem) := by
  have h1 := (h.found hfind).1
  obtain ⟨⟨o, s1'⟩, hfind', ho, hs1, hrest1⟩ := findProgram_twin henv hs hd.rest _ hfind
  dsimp only at ho hs1 hrest1
  obtain ⟨⟨img', fromDisk'⟩, rfl, hsame, hdisk⟩ : ∃ q, o = some q ∧ SameProgram (img, fromDisk) q := by
    cases ho with
    | some h => exact ⟨_, rfl, h⟩
  dsimp only at hsame hdisk
  subst hdisk
  have hstale : env'.stale = env.stale := by rw [henv]
  obtain ⟨o, t, hspec, htask, B⟩ :=
    @findProgram_spec env (pathString env.stale copied) s h.live.held h.live.spaces.trees.pmm
  obtain ⟨rfl, rfl⟩ : some (img, fromDisk') = o ∧ s1 = t := Prod.mk.inj (Except.ok.inj (hfind.symm.trans hspec))
  have hpmm : s'.kern.pmm = s.kern.pmm := by rw [hd.rest]
  have hheld : s'.fs.Held s'.kern := by
    rw [show s'.fs = s.fs by rw [hs]]
    exact ⟨h.live.held.addr, hpmm ▸ h.live.held.inside, hpmm ▸ h.live.held.used⟩
  obtain ⟨o, t, hspec', -, B'⟩ := @findProgram_spec env' (pathString env.stale copied) s' hheld
    (hpmm ▸ h.live.spaces.trees.pmm)
  obtain ⟨rfl, rfl⟩ : some (img', fromDisk') = o ∧ s1' = t := Prod.mk.inj (Except.ok.inj (hfind'.symm.trans hspec'))
  have hkept : ∀ f, f ∉ s1.fs.bufPages → s1.kern.mem f = s.kern.mem f ∧ s1'.kern.mem f = s'.kern.mem f := fun f hf =>
    ⟨B.mem f hf, B'.mem f (by rw [hs1]; exact hf)⟩
  have htables : ∀ g ∈ paging.tables s1.kern.mem 3 (pageIdx s1.task.cr3) lowerHalf, s1'.kern.mem g = s1.kern.mem g := by
    intro g hg
    have hr : pageIdx s.task.cr3 ∈ [pageIdx s.task.cr3] := mem_singleton_self _
    obtain ⟨h2, h3⟩ := hkept g (h1.live.tables g (mem_forest.2 ⟨_, mem_singleton_self _, hg⟩)).2
    rw [htask, (h.live.buffered_agree B hr).tables] at hg
    rw [h2, h3]
    exact hd.used g (h.live.spaces.trees.used g (mem_forest.2 ⟨_, hr, hg⟩))
  obtain ⟨s2', hnew', A⟩ := newSpace_twin h1 hs1 hrest1 htables _ hnew
  have hpath := pathString_length env.stale copied
  simp only [doExecve, hcopy, hfind, hnew, ok_bind] at hrun
  obtain ⟨⟨o, k3⟩, hload, hrun⟩ := bind_ok.1 hrun
  cases o with
  | none => cases hrun
  | some q =>
    obtain ⟨k3', hload'⟩ := loadImage_again A.fresh.1 A.fresh.2 (by rw [A.rest]) himg hbytes hpath hload
    obtain ⟨L, hC⟩ := loadImage_loaded A.fresh.1 himg hbytes hin hpath hload
    obtain ⟨L', -⟩ := loadImage_loaded A.fresh.2 himg hbytes hin hpath hload'
    rw [← loadImage_same hsame (le_trans (Nat.le_add_right _ _) himg.size) hin] at hload'
    have hviews : ReadsSame k3.mem k3'.mem (frame s2.task.cr3) ↔ RawAgree (Supplied img (pathString env.stale copied))
        s2.kern.pmm (filePages img ++ stackPages) s.kern.mem s'.kern.mem := by
      rw [A.root]
      refine (L.views_iff L' A.rest hC).trans (rawAgree_congr fun pre va post hp => ?_)
      -- the page was free when the new space was empty: it is not in the file buffer, and not the PML4
      have hfree := L.nth_free hp
      obtain ⟨h2, h3⟩ := A.other _ fun hc => A.fresh.1.used (hc ▸ hfree)
      obtain ⟨h4, h5⟩ := hkept _ fun hc => A.live.held.used _ hc hfree
      exact ⟨h2.trans h4, h3.trans h5⟩
    have hpmm3 : k3'.pmm = k3.pmm := by rw [L'.stocked.pmm, L.stocked.pmm, A.rest]
    have htask2 : s2'.task = s2.task := by rw [A.state]
    have hlaunch : launch trampoline q.1 q.2 s2'.task = launch trampoline q.1 q.2 s2.task := by rw [htask2]
    have hfs : s2'.fs = s2.fs := by rw [A.state]
    simp only [doExecve, hcopy', hfind', hstale, hnew', hload', hfs, ok_bind]
    cases fromDisk' with
    | false =>
      cases hrun
      exact ⟨_, rfl, hlaunch, hviews⟩
    | true =>
      obtain ⟨⟨fs, k4⟩, hfree, hrun⟩ := bind_ok.1 hrun
      cases hrun
      obtain ⟨⟨fs', k4'⟩, hfree', -, p, hk, hk'⟩ := Uixfs.fileBufFree_twin hpmm3 _ hfree
      dsimp only at hk hk'
      subst hk hk'
      exact ⟨_, bind_ok.2 ⟨_, hfree', rfl⟩, hlaunch, hviews⟩

/-! ## What a program can read -/

/-- **A new program reads the bytes that free pages held** wherever the loader stores none: in two kernels that differ
in free pages only, it starts in the same pages, and reads the same if and only if these bytes were the same. The pages
are those that the allocator hands out, after the PML4 for `user_task_create`, after the new space is made for
`do_execve`. -/
theorem image_reveals_raw_bytes (img : Image) (himg : UserImage img) (hbytes : img.Readable) :
    (∀ (k k' : Kern) (cr3 : PAddr) (k₁ : Kern), k.pmm.Ok → k.pmm.bitmapLen ≤ 2 ^ 40 → FreeDiffer k k' →
      Kern.userTaskImage img k = .ok (cr3, k₁) → ∃ k₁', Kern.userTaskImage img k' = .ok (cr3, k₁') ∧
        (ReadsSame k₁.mem k₁'.mem (frame cr3) ↔ RawAgree (Kern.Span 0x400000 img.len.toNat) (k.pmm.skip 1)
          (Kern.flatPages img.len ++ stackPages) k.mem k'.mem)) ∧
    ∀ (env env' : ExecEnv) (trampoline upath : U64) (s s' : ExecState) (copied : List (BitVec 8)) (fromDisk : Bool)
      (s1 s2 : ExecState) (entry rsp : U64) (t : ExecState), Elf.ReadsInside img → Caller s →
      env' = { env with stray := env'.stray } → s' = { s with kern := s'.kern } → FreeDiffer s.kern s'.kern →
      copyPath s.kern 63 upath = .ok copied → copyPath s'.kern 63 upath = .ok copied →
      findProgram env (pathString env.stale copied) s = .ok (some (img, fromDisk), s1) → newSpace s1 = .ok s2 →
      doExecve env trampoline upath s = .ok (.launched entry rsp, t) →
      ∃ t', doExecve env' trampoline upath s' = .ok (.launched entry rsp, t') ∧ t'.task = t.task ∧
        (ReadsSame t.kern.mem t'.kern.mem (frame t.task.cr3) ↔ RawAgree (Supplied img (pathString env.stale copied))
          s2.kern.pmm (filePages img ++ stackPages) s.kern.mem s'.kern.mem) := by
  refine ⟨fun k k' cr3 k₁ hk hphys hd hrun => ?_, ?_⟩
  · obtain ⟨⟨cr3', k₁'⟩, hrun', hcr3, hviews⟩ := Kern.userTaskImage_twin hk hphys himg.size hbytes hd _ hrun
    dsimp only at hcr3 hviews
    subst hcr3
    exact ⟨k₁', hrun', hviews⟩
  · intro env env' trampoline upath s s' copied fromDisk s1 s2 entry rsp t hin h henv hs hd hcopy hcopy' hfind hnew hrun
    exact doExecve_twin h henv hs hd hcopy hcopy' hfind hnew himg hbytes hin hrun

end Exec

namespace Tasks

/-- all free pages hold the words `row` -/
def dirtyKern (row : Fin 512 → U64) : Kern :=
  { emptyKern with mem := fun f => if f ∈ Finset.Ico 2 1024 then row else emptyKern.mem f }

theorem dirtyKern_free (row : Fin 512 → U64) : (dirtyKern row).pmm.freeSet = Finset.Ico 2 1024 :=
  Pmm.freeSet_fresh _ _ (by decide)

theorem dirtyKern_differ (row row' : Fin 512 → U64) : FreeDiffer (dirtyKern row) (dirtyKern row') := by
  refine ⟨rfl, fun f hf => ?_⟩
  rw [dirtyKern_free] at hf
  exact (if_neg hf).trans (if_neg hf).symm

/-- the lowest byte of the stack is what the page held -/
theorem dirtyKern_stack (row : Fin 512 → U64) : ∃ cr3 k₁, userTaskImage noProgram (dirtyKern row) = .ok (cr3, k₁) ∧
    userByte k₁.mem (frame cr3) stackVa.1 = some (getByte row 0) := by
  obtain ⟨cr3, k₁, e, hrun, -, -, hfree, -, hbyte⟩ := first_space (dirtyKern row).mem
  refine ⟨cr3, k₁, hrun, hbyte.trans (congrArg (fun r => some (getByte r 0)) (if_pos ?_))⟩
  rwa [← dirtyKern_free row]

/-- **A byte of a free page** is on the stack of a new program. -/
theorem old_byte_revealed : ∃ k k' cr3 cr3' k₁ k₁', k.pmm.Ok ∧ k.pml4 ∉ k.pmm.freeSet ∧ FreeDiffer k k' ∧
    Kern.userTaskImage noProgram k = .ok (cr3, k₁) ∧ Kern.userTaskImage noProgram k' = .ok (cr3', k₁') ∧
    userByte k₁.mem (frame cr3) stackVa.1 = some 0 ∧ userByte k₁'.mem (frame cr3') stackVa.1 = some 0x53 := by
  obtain ⟨cr3, k₁, hrun, hbyte⟩ := dirtyKern_stack fun _ => 0
  obtain ⟨cr3', k₁', hrun', hbyte'⟩ := dirtyKern_stack fun _ => 0x53
  refine ⟨dirtyKern fun _ => 0, dirtyKern fun _ => 0x53, cr3, cr3', k₁, k₁', emptyKern_ok, ?_,
    dirtyKern_differ _ _, hrun, hrun', ?_, ?_⟩
  · rw [dirtyKern_free]
    exact fun hc => absurd (Finset.mem_Ico.1 hc).1 (by decide)
  · rw [hbyte]
    decide +kernel
  · rw [hbyte']
    decide +kernel

/-- another row in page `g` -/
def spoil (k : Kern) (g : ℕ) : Kern := { k with mem := Function.update k.mem g fun i => k.mem g i + 1 }

section Spoil

variable {k : Kern} {g : ℕ}

theorem spoil_mem {f : ℕ} (hf : f ≠ g) : (spoil k g).mem f = k.mem f := update_of_ne hf _ _

theorem spoil_ne : spoil k g ≠ k := by
  intro hc
  have hword : k.mem g 0 + 1 = k.mem g 0 := by
    rw [← congrFun (update_self g (fun i => k.mem g i + 1) k.mem) 0]
    exact congrFun (congrFun (congrArg mem hc) g) 0
  bv_omega

theorem spoil_differ (hg : g ∈ k.pmm.freeSet) : FreeDiffer k (spoil k g) :=
  ⟨rfl, fun f hf => spoil_mem fun hc => hf (by rw [hc]; exact hg)⟩

/-- a page that is not handed out is not seen -/
theorem spoil_raw {C : UserAddr → Prop} {p : Pmm} {pages : List U64}
    (hg : ∀ pre va post, pages = pre ++ va :: post → p.nth (cost .fresh pre.reverse) ≠ g) :
    RawAgree C p pages k.mem (spoil k g).mem := by
  intro pre va post hp x _ _
  rw [spoil_mem (hg pre va post hp)]

/-- fewer pages are handed out than are free -/
theorem exists_spare (p : Pmm) {pages : List U64} {S : Finset ℕ} (h : pages.length < S.card) :
    ∃ g ∈ S, ∀ pre va post, pages = pre ++ va :: post → p.nth (cost .fresh pre.reverse) ≠ g := by
  obtain ⟨g, hg, hno⟩ := Finset.exists_mem_notMem_of_card_lt_card
    (s := (Finset.range pages.length).image fun i => p.nth (cost .fresh (pages.take i).reverse)) (t := S)
    (lt_of_le_of_lt (Finset.card_image_le.trans_eq (Finset.card_range _)) h)
  refine ⟨g, hg, fun pre va post hp hc => hno (Finset.mem_image.2 ⟨pre.length, ?_, ?_⟩)⟩
  · rw [hp, Finset.mem_range, length_append, length_cons]
    omega
  · rw [hp, take_left]
    exact hc

end Spoil

/-- the path of the file is in a page that is not free -/
theorem file_path_spoil {g : ℕ} (hg : g ∈ (Exec.fileState 4).kern.pmm.freeSet) :
    Exec.copyPath (spoil (Exec.fileState 4).kern g) 63 0 = .ok [0x66] := by
  have hread : ∀ (va : UserAddr) b, userByte (Exec.fileState 4).kern.mem 1 va.1 = some b →
      (spoil (Exec.fileState 4).kern g).readByte va.1 = .ok b := fun va b h => by
    refine readByte_of_userByte ?_
    rw [← h, show frame (spoil (Exec.fileState 4).kern g).cr3 = 1 from (by decide : frame (pageAddr 1) = 1)]
    exact (Exec.fileState_caller 4).live.spaces.view_differ (mem_singleton.2 (show 1 = _ by decide))
      (spoil_differ hg) va
  have h0 := hread ⟨0, by decide⟩ 0x66 (by decide +kernel)
  have h1 := hread ⟨1, by decide⟩ 0 (by decide +kernel)
  dsimp only at h0 h1
  rw [Exec.copyPath, h0, ok_bind, if_neg (by decide), Exec.copyPath, show (0 : U64) + 1 = 1 from rfl, h1, ok_bind,
    if_pos rfl]
  rfl

/-- a page that is not handed out is not seen by a program of four bytes, neither as a first program nor from the
disk -/
theorem spare_page_unseen : ∃ img k k' cr3 k₁ k₁' s s' env' r t t', img.len = 4 ∧ k' ≠ k ∧ FreeDiffer k k' ∧
    Kern.userTaskImage img k = .ok (cr3, k₁) ∧ Kern.userTaskImage img k' = .ok (cr3, k₁') ∧
    ReadsSame k₁.mem k₁'.mem (frame cr3) ∧ s'.kern ≠ s.kern ∧ FreeDiffer s.kern s'.kern ∧
    Exec.doExecve (Exec.fileEnv [1, 2, 3, 4]) 0 0 s = .ok (r, t) ∧ Exec.doExecve env' 0 0 s' = .ok (r, t') ∧
    ReadsSame t.kern.mem t'.kern.mem (frame t.task.cr3) := by
  obtain ⟨img, s1, s2, hf, himg, hlen, hnew, hroom⟩ := Exec.four_bytes_found
  obtain ⟨fromDisk, hfind⟩ := Exec.file_found.1 hf
  have hsize : (4 : ℕ) ≤ 0x3C0000 := by decide
  have hnot : Exec.isElf img = .ok false := Exec.isElf_of_is himg (by decide)
  have huser : UserImage img := ⟨fun eh heh => absurd heh (Exec.header_of_isElf hnot), by rw [hlen]; decide⟩
  obtain ⟨hcreated, hexecuted⟩ := Exec.image_reveals_raw_bytes img huser himg.readable
  have hcaller := Exec.fileState_caller 4
  have hk := hcaller.live.spaces.trees
  have hfree : (Exec.fileState 4).kern.pmm.freeSet.card = 1000 := by
    rw [Exec.fileState, Exec.scarceKern, Exec.scarcePmm_free, Nat.card_Ico]
  have hpages : (Kern.flatPages img.len ++ stackPages).length < (Exec.fileState 4).kern.pmm.freeSet.card := by
    rw [hfree, hlen]
    decide
  obtain ⟨cr3, k₁, hrun, -⟩ := Kern.userTaskImage_flatSpace hk.pmm hk.phys himg hsize (hroom.2.trans_eq hfree.symm)
  obtain ⟨g, hg, hspare⟩ := exists_spare ((Exec.fileState 4).kern.pmm.skip 1) hpages
  obtain ⟨k₁', hrun', hiff⟩ := hcreated _ (spoil _ g) cr3 k₁ hk.pmm hk.phys (spoil_differ hg) hrun
  obtain ⟨t, hexec, -⟩ := @Exec.doExecve_flatSpace _ _ _ _ 0 _ _ _ hcaller hf hnew himg hsize (by decide) hroom.1
  obtain ⟨g', hg', hspare'⟩ := exists_spare s2.kern.pmm hpages
  have hpath : Exec.filePages img = Kern.flatPages img.len := by rw [Exec.filePages, hnot]
  obtain ⟨t', hexec', -, hiff'⟩ := hexecuted _ { Exec.fileEnv [1, 2, 3, 4] with stray := fun _ => some 0xFF } 0 0
    (Exec.fileState 4) { Exec.fileState 4 with kern := spoil (Exec.fileState 4).kern g' } [0x66] fromDisk s1 s2 _ _ t
    (fun eh heh => absurd heh (Exec.header_of_isElf hnot)) hcaller rfl rfl (spoil_differ hg') (Exec.file_path 4)
    (file_path_spoil hg') hfind hnew hexec
  exact ⟨img, _, _, cr3, k₁, k₁', _, _, _, _, t, t', hlen, spoil_ne, spoil_differ hg, hrun, hrun',
    hiff.2 (spoil_raw hspare), spoil_ne, spoil_differ hg', hexec, hexec', hiff'.2 (hpath ▸ spoil_raw hspare')⟩

end Tasks

end Uix
