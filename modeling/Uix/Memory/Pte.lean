/-
The words that page-table entries are made of: their flags, their frame, and the indices of an address.

- `has_or`, `has_and`: a flag of a combined word.
- `frame_or`, `frame_and`: the frame of a combined word; `frame_table`, `frame_cow`: of the entries the kernel writes.
- `indices_eq_iff`: the four indices of an address are the bits 12 .. 47 of it.
-/
import Uix.Memory.Vmm
import Uix.Memory.PmmSpec

namespace Uix

open Pmm (pageIdx pageAddr)

/-! ## Flags -/

theorem has_or (a b f : U64) : has (a ||| b) f = (has a f || has b f) := by
  have h : (a ||| b) &&& f = 0 ↔ a &&& f = 0 ∧ b &&& f = 0 := by
    rw [show (a ||| b) &&& f = (a &&& f) ||| (b &&& f) from BitVec.and_or_distrib_right ..]
    exact BitVec.or_eq_zero_iff
  simp only [has, ne_eq, h, not_and_or, Bool.decide_or]

theorem has_and (a c f : U64) : has (a &&& c) f = has a (c &&& f) := by
  simp only [has, BitVec.and_assoc]

theorem has_zero (a : U64) : has a 0 = false := by simp [has]

theorem zero_has (f : U64) : has 0 f = false := by simp [has]

/-! ## Frames -/

theorem frame_eq (e : U64) : frame e = ((e >>> 12) &&& 0xFFFFFFFFFF#64).toNat := by
  rw [frame, Pmm.pageIdx, BitVec.ushiftRight_and_distrib]
  rfl

theorem frame_eq_mod (e : U64) : frame e = pageIdx e % 2 ^ 40 := by
  rw [frame_eq, BitVec.toNat_and, Pmm.pageIdx]
  exact Nat.and_two_pow_sub_one_eq_mod _ 40

theorem frame_or {a b : U64} (h : (b >>> 12) &&& 0xFFFFFFFFFF#64 = 0) : frame (a ||| b) = frame a := by
  rw [frame_eq, frame_eq, BitVec.ushiftRight_or_distrib, BitVec.and_or_distrib_right, h]
  simp

theorem frame_and {a c : U64} (h : (c >>> 12) &&& 0xFFFFFFFFFF#64 = 0xFFFFFFFFFF#64) : frame (a &&& c) = frame a := by
  rw [frame_eq, frame_eq, BitVec.ushiftRight_and_distrib, BitVec.and_assoc, h]

theorem frame_pageAddr {i : ℕ} (h : i < 2 ^ 40) : frame (pageAddr i) = i := by
  rw [frame_eq_mod, Pmm.pageIdx_pageAddr (by omega), Nat.mod_eq_of_lt h]

theorem pageAddr_and_mask {i : ℕ} (h : i < 2 ^ 40) : pageAddr i &&& pteMask = pageAddr i := by
  have hi : i * 2 ^ 12 < 2 ^ 64 := by omega
  apply BitVec.eq_of_toNat_eq
  simp only [pageAddr, BitVec.toNat_and, BitVec.toNat_shiftLeft, BitVec.toNat_ofNat,
    Nat.mod_eq_of_lt (show i < 2 ^ 64 by omega), Nat.shiftLeft_eq, Nat.mod_eq_of_lt hi]
  rw [show (pteMask).toNat = (2 ^ 40 - 1) * 2 ^ 12 from rfl, ← Nat.shiftLeft_eq, ← Nat.shiftLeft_eq,
    ← Nat.shiftLeft_and_distrib, Nat.and_two_pow_sub_one_eq_mod, Nat.mod_eq_of_lt h]

/-- the frame of an address that went through `PTE_MASK` -/
theorem pageIdx_mask (e : U64) : pageIdx (e &&& pteMask) = frame e := rfl

theorem frame_table {i : ℕ} (h : i < 2 ^ 40) : frame (pageAddr i ||| tableFlags) = i := by
  rw [frame_or (by decide), frame_pageAddr h]

theorem present_table (t : U64) : has (t ||| tableFlags) vmmPresent = true := by
  rw [has_or, show has tableFlags vmmPresent = true by decide, Bool.or_true]

theorem ps_table {i : ℕ} (h : i < 2 ^ 40) : has (pageAddr i ||| tableFlags) pdePs = false := by
  rw [has_or, show has tableFlags pdePs = false by decide, Bool.or_false, ← pageAddr_and_mask h, has_and]
  exact has_zero _

/-- a page address has no flags -/
theorem has_pageAddr {i : ℕ} (h : i < 2 ^ 40) {f : U64} (hf : pteMask &&& f = 0) : has (pageAddr i) f = false := by
  rw [← pageAddr_and_mask h, has_and, hf, has_zero]

/-- the entry that fork leaves in both spaces for a user page -/
def cow (e : U64) : U64 := stripWrite e ||| cowMark

/-- fork keeps only the low 20 bits of the frame -/
theorem frame_cow (e : U64) : frame (cow e) = frame e % 2 ^ 20 := by
  have h : ((stripWrite e) >>> 12) &&& 0xFFFFFFFFFF#64 = ((e >>> 12) &&& 0xFFFFFFFFFF#64) &&& 0xFFFFF#64 := by
    rw [stripWrite, BitVec.ushiftRight_and_distrib, BitVec.and_assoc, BitVec.and_assoc]
    rfl
  rw [cow, frame_or (by decide), frame_eq, h, BitVec.toNat_and, ← frame_eq]
  exact Nat.and_two_pow_sub_one_eq_mod _ 20

theorem has_cow {f : U64} (e : U64) (h1 : (~~~ vmmWrite).setWidth 64 &&& f = f) (h2 : has cowMark f = false) :
    has (cow e) f = has e f := by
  rw [cow, has_or, stripWrite, has_and, h1, h2, Bool.or_false]

theorem write_cow (e : U64) : has (cow e) (vmmWrite.setWidth 64) = false := by
  rw [cow, has_or, stripWrite, has_and, show (~~~ vmmWrite).setWidth 64 &&& vmmWrite.setWidth 64 = 0#64 by decide]
  rw [show has cowMark (vmmWrite.setWidth 64) = false by decide, Bool.or_false]
  exact has_zero e

theorem mark_cow (e : U64) : has (cow e) cowMark = true := by
  rw [cow, has_or, show has cowMark cowMark = true by decide, Bool.or_true]

/-! ## Indices -/

/-- the index of `va` in a table of level `l` -/
def idx (va : U64) (l : ℕ) : Fin 512 := slot va (12 + 9 * l)

theorem slot_val (va : U64) (s : ℕ) : (slot va s).val = va.toNat / 2 ^ s % 512 := by
  simp only [slot, Fin.ofNat, BitVec.toNat_and, BitVec.toNat_ushiftRight, Nat.shiftRight_eq_div_pow]
  rw [show (0x1FF#64).toNat = 2 ^ 9 - 1 from rfl, Nat.and_two_pow_sub_one_eq_mod]
  omega

/-- **The indices of an address** are its bits 12 .. 47. -/
theorem indices_eq_iff (va va' : U64) :
    (∀ l ≤ 3, idx va l = idx va' l) ↔ va.toNat / 2 ^ 12 % 2 ^ 36 = va'.toNat / 2 ^ 12 % 2 ^ 36 := by
  have key : ∀ l ≤ 3,
      (idx va l = idx va' l ↔ va.toNat / 2 ^ (12 + 9 * l) % 512 = va'.toNat / 2 ^ (12 + 9 * l) % 512) := by
    intro l _
    rw [idx, idx, Fin.ext_iff, slot_val, slot_val]
  constructor
  · intro h
    have h0 := (key 0 (by omega)).1 (h 0 (by omega))
    have h1 := (key 1 (by omega)).1 (h 1 (by omega))
    have h2 := (key 2 (by omega)).1 (h 2 (by omega))
    have h3 := (key 3 (by omega)).1 (h 3 (by omega))
    norm_num at h0 h1 h2 h3 ⊢
    omega
  · intro h l hl
    rw [key l hl]
    norm_num at h
    interval_cases l <;> norm_num <;> omega

end Uix
