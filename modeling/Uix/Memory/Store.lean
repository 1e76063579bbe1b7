/-
Stores through the tables of a user space, and the byte they change.

- `Spaces.store_leaf`, `store_absent`: a store goes to the page of a writable leaf.
- `Spaces.write_writable`: where every page is writable a write stores its byte, or ends in an exception.
-/
import Uix.Memory.PageFault

namespace Uix.Kern

open Machine Radix Radix.Format Bytes Function
open Pmm (pageIdx pageAddr Takes Draws)

variable {k : Kern} {roots : List ℕ} {va : UserAddr} {b : BitVec 8} {ring3 : Bool}

/-- addresses of one page with the same offset are one address -/
theorem UserAddr.eq_of_idx {va va' : UserAddr} (hj : ∀ j ≤ 3, idx va'.1 j = idx va.1 j)
    (ho : va'.1.toNat % pageSize = va.1.toNat % pageSize) : va' = va := by
  have h1 : va.1.toNat < 2 ^ 47 := BitVec.lt_def.1 va.2
  have h2 : va'.1.toNat < 2 ^ 47 := BitVec.lt_def.1 va'.2
  have hpage := (indices_eq_iff va'.1 va.1).1 hj
  apply Subtype.ext
  apply BitVec.eq_of_toNat_eq
  simp only [pageSize] at ho
  omega

theorem mod_pageSize_lt (n : ℕ) : n % pageSize < 8 * 512 := Nat.mod_lt n (by decide)

/-- byte `o` of page `f` set to `b` -/
def putByte (k : Kern) (f o : ℕ) (b : BitVec 8) : Kern :=
  { k with mem := Function.update k.mem f (setByte (k.mem f) o b) }

theorem putByte_of_ne {f f' : ℕ} (hne : f' ≠ f) (o : ℕ) (b : BitVec 8) : (k.putByte f o b).mem f' = k.mem f' :=
  update_of_ne hne _ _

theorem putByte_self (f o : ℕ) (b : BitVec 8) : (k.putByte f o b).mem f = setByte (k.mem f) o b := update_self ..

/-- a store goes to the page of the leaf, if that is writable -/
theorem Spaces.store_leaf {e : U64} (h : Spaces k roots) (hr : k.pml4 ∈ roots) (hcr3 : frame k.cr3 = k.pml4)
    (hw : paging.walk k.mem 3 k.pml4 (idx va.1) = some (0, e)) :
    k.store ring3 va.1 b =
      if has e writeBit then some (k.putByte (frame e) (va.1.toNat % pageSize) b) else none := by
  have hl : ∀ e ∈ paging.linksAt k.mem 3 k.pml4 (idx va.1 3), TableLink e := fun e he =>
    h.links _ hr e (List.mem_flatMap.2 ⟨_, va.lower, he⟩)
  have hmmu := mmuWalk_walk k.mem 3 k.pml4 (idx va.1)
  rw [hw, Option.map_eq_some_iff] at hmmu
  obtain ⟨t, ht, hte⟩ := hmmu
  rw [Prod.mk.injEq] at hte
  obtain ⟨hlev, rfl⟩ := hte
  obtain ⟨e', he', hu⟩ := h.walk_plain hr va.lower hw
  rw [Prod.mk.injEq] at he'
  rw [← he'.2] at hu
  obtain ⟨htw, htu⟩ := mmuWalk_perm hl ht
  obtain ⟨ha, ho⟩ := physAddr_page hlev va.1
  simp only [store, hcr3, ht, htw, htu, hu, Bool.true_or, Bool.true_and, storeByte, ha, ho, putByte]

theorem store_absent {va : U64} (hcr3 : frame k.cr3 = k.pml4) (hw : paging.walk k.mem 3 k.pml4 (idx va) = none) :
    k.store ring3 va b = none := by
  have hmmu := mmuWalk_walk k.mem 3 k.pml4 (idx va)
  rw [hw, Option.map_eq_none_iff] at hmmu
  simp only [store, hcr3, hmmu]

/-- a store of the kernel, below tables that are writable -/
theorem store_kernel {va e : U64} (hcr3 : frame k.cr3 = k.pml4)
    (hl : ∀ e ∈ paging.linksAt k.mem 3 k.pml4 (idx va 3), has e writeBit = true)
    (hw : paging.walk k.mem 3 k.pml4 (idx va) = some (0, e)) (he : has e writeBit = true) :
    k.store false va b = some (k.putByte (frame e) (va.toNat % pageSize) b) := by
  have hmmu := mmuWalk_walk k.mem 3 k.pml4 (idx va)
  rw [hw, Option.map_eq_some_iff] at hmmu
  obtain ⟨t, ht, hte⟩ := hmmu
  rw [Prod.mk.injEq] at hte
  have htw : t.write = has t.entry writeBit := by
    refine mmuWalk_induct (P := fun t => t.write = has t.entry writeBit) (fun _ _ _ => rfl) (fun e he t h => ?_) ht
    simp only [Leaf.through, h, hl e he, Bool.and_true]
  obtain ⟨ha, ho⟩ := physAddr_page hte.1 va
  simp only [store, hcr3, ht, htw, hte.2, he, Bool.not_false, Bool.or_true, Bool.and_true, if_true, storeByte, ha,
    ho, putByte]

theorem writeFaultCode_and (k : Kern) (ring3 : Bool) (va : U64) :
    k.writeFaultCode ring3 va &&& 3 = if (mmuWalk k.mem 3 (frame k.cr3) (idx va)).isSome then 3 else 2 := by
  unfold writeFaultCode
  split_ifs <;> rfl

/-- a write where nothing is mapped: the handler gives up -/
theorem write_absent {va : U64} (hcr3 : frame k.cr3 = k.pml4) (hw : paging.walk k.mem 3 k.pml4 (idx va) = none) :
    k.write ring3 va b = .error (.panic .unhandled) := by
  have hm : mmuWalk k.mem 3 (frame k.cr3) (idx va) = none := by
    have := mmuWalk_walk k.mem 3 k.pml4 (idx va)
    rwa [hw, Option.map_eq_none_iff, ← hcr3] at this
  have hcode : ¬ (k.writeFaultCode ring3 va &&& 3 = 3 ∧ va < 0x0000800000000000#64) := by
    rw [writeFaultCode_and, hm]
    exact fun hc => absurd hc.1 (by decide)
  unfold write
  split_ifs
  · rw [store_absent hcr3 hw]
    simp only
    rw [vmmPageFault, if_pos hcode, pure_eq_ok, ok_bind]
    rfl
  · rfl

/-- every page of the active space is writable -/
def Writable (k : Kern) : Prop := ∀ p ∈ paging.leaves k.mem 3 k.pml4 lowerHalf, has p.2 writeBit = true

/-- **A write where every page is writable** goes to the page mapped there; without one it is an exception. -/
theorem Spaces.write_writable (h : Spaces k roots) (hr : k.pml4 ∈ roots) (hcr3 : frame k.cr3 = k.pml4)
    (hw : Writable k) : Meets (k.write ring3 va.1 b) (fun st => st = .panic .unhandled) fun k' => ∃ e,
      paging.walk k.mem 3 k.pml4 (idx va.1) = some (0, e) ∧ k' = k.putByte (frame e) (va.1.toNat % pageSize) b := by
  cases hwalk : paging.walk k.mem 3 k.pml4 (idx va.1) with
  | none =>
    rw [write_absent hcr3 hwalk]
    exact meets_error rfl
  | some p =>
    obtain ⟨e, rfl, -⟩ := h.walk_plain hr va.lower hwalk
    have hwr : has e writeBit = true := hw (0, e) (mem_leaves.2 ⟨_, va.lower, hwalk⟩)
    rw [write, if_neg (not_not.2 va.canonical), h.store_leaf hr hcr3 hwalk, if_pos hwr]
    exact meets_ok ⟨e, rfl, rfl⟩

end Uix.Kern
