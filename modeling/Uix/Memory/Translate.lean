/-
`vmm_translate` beside the processor's page walk (`src/core/memory/vmm.c`).

For 2 MiB and 1 GiB pages `vmm_translate` adds the offset of the address in its page; for a 4 KiB page it stores the
page's address alone. It also looks up addresses that are not canonical, which the processor never walks.

- `mmuTranslate`: the physical address that the processor produces.
- `Spaces.translate`: the translations of a space in order.
- `target_physAddr`: where the two address computations agree.
- `vmm_translate_agrees_iff`: the addresses on which `vmm_translate` agrees with the processor.
-/
import Uix.Memory.Mmu
import Uix.Memory.ForkTranslation
import Uix.Memory.Spaces

namespace Uix

open Machine Radix Radix.Format
open Pmm (pageIdx pageAddr)

/-- the physical address of `va` for the processor; an address that is not canonical raises an exception -/
def mmuTranslate (m : PhysMem) (root : ℕ) (va : U64) : Option ℕ :=
  if Canonical va then (mmuWalk m 3 root (idx va)).map (·.physAddr va) else none

/-- **What the processor makes of a user address** in a space that is in order. -/
theorem Kern.Spaces.translate {k : Kern} {roots : List ℕ} {r : ℕ} (h : Spaces k roots) (hr : r ∈ roots)
    (va : UserAddr) :
    mmuTranslate k.mem r va.1 = (paging.walk k.mem 3 r (idx va.1)).map fun p =>
    frame p.2 * pageSize + va.1.toNat % pageSize := by
  rw [mmuTranslate, if_pos va.canonical, ← mmuWalk_walk, Option.map_map]
  cases hw : mmuWalk k.mem 3 r (idx va.1) with
  | none => rfl
  | some t =>
    have hwalk := mmuWalk_walk k.mem 3 r (idx va.1)
    rw [hw, Option.map_some] at hwalk
    obtain ⟨e, he, -⟩ := h.walk_plain hr va.lower hwalk.symm
    rw [Prod.mk.injEq] at he
    have hphys := physAddr_page he.1 va.1
    rw [Option.map_some, Option.map_some, Option.some.injEq, Function.comp, ← hphys.1, ← hphys.2]
    exact (Nat.div_add_mod' _ _).symm

/-! ## Masks -/

/-- the bits `s .. s + w - 1` of a word -/
theorem toNat_and_field (e : U64) {s w : ℕ} {mask : U64} (hm : mask.toNat = (2 ^ w - 1) <<< s) :
    (e &&& mask).toNat = e.toNat / 2 ^ s % 2 ^ w * 2 ^ s := by
  rw [BitVec.toNat_and, hm, ← Nat.shiftRight_eq_div_pow, ← Nat.and_two_pow_sub_one_eq_mod, ← Nat.shiftLeft_eq]
  apply Nat.eq_of_testBit_eq
  intro i
  simp only [Nat.testBit_and, Nat.testBit_shiftLeft, Nat.testBit_shiftRight]
  by_cases hi : s ≤ i
  · simp [hi, Nat.add_sub_cancel' hi]
  · simp [hi]

theorem toNat_and_low (va : U64) {w : ℕ} {mask : U64} (hm : mask.toNat = 2 ^ w - 1) :
    (va &&& mask).toNat = va.toNat % 2 ^ w := by
  rw [BitVec.toNat_and, hm, Nat.and_two_pow_sub_one_eq_mod]

/-- the start of the page of a leaf -/
theorem frame_base (e : U64) {l : ℕ} (hl : l ≤ 2) :
    frame e * pageSize / 2 ^ (12 + 9 * l) * 2 ^ (12 + 9 * l) =
      e.toNat / 2 ^ (12 + 9 * l) % 2 ^ (40 - 9 * l) * 2 ^ (12 + 9 * l) := by
  have hf : frame e * pageSize = e.toNat / 2 ^ 12 % 2 ^ 40 * 2 ^ 12 := by
    rw [frame_eq_mod, pageIdx, BitVec.toNat_ushiftRight, Nat.shiftRight_eq_div_pow]
    rfl
  rw [hf]
  interval_cases l <;> norm_num <;> omega

/-! ## The end of the walk -/

/-- a page is of 4 KiB, 2 MiB or 1 GiB -/
theorem mmuWalk_level {m : PhysMem} {l f : ℕ} {x : ℕ → Fin 512} {t : Leaf} (h : mmuWalk m l f x = some t) :
    t.level ≤ 2 :=
  mmuWalk_induct (P := fun t => t.level ≤ 2) (fun _ hj _ => hj) (fun _ _ _ ht => ht) h

/-- the page of a leaf and the offset in it, added in 64 bits -/
theorem toNat_page_add (e va mask low : U64) {l : ℕ} (hl : l ≤ 2)
    (hm : mask.toNat = (2 ^ (40 - 9 * l) - 1) <<< (12 + 9 * l)) (hlow : low.toNat = 2 ^ (12 + 9 * l) - 1) :
    ((e &&& mask) + (va &&& low)).toNat =
      frame e * pageSize / 2 ^ (12 + 9 * l) * 2 ^ (12 + 9 * l) + va.toNat % 2 ^ (12 + 9 * l) := by
  rw [BitVec.toNat_add, toNat_and_field e hm, toNat_and_low va hlow, frame_base e hl]
  apply Nat.mod_eq_of_lt
  interval_cases l <;> norm_num <;> omega

/-- **The two address computations** agree for large pages, and for 4 KiB pages at their first byte. -/
theorem target_physAddr {t : Leaf} (ht : t.level ≤ 2) (va : U64) :
    (Kern.target va (t.level, t.entry)).toNat = t.physAddr va ↔ (t.level = 0 → va.toNat % pageSize = 0) := by
  obtain ⟨l, e, w, u, x⟩ := t
  simp only [Leaf.physAddr] at ht ⊢
  interval_cases l
  · have hpage : (e &&& pteMask).toNat = frame e * pageSize := by
      rw [toNat_and_field e (s := 12) (w := 40) rfl, ← frame_base e (Nat.zero_le 2)]
      simp [pageSize]
    rw [Kern.target, hpage]
    simp only [pageSize, forall_const]
    omega
  · have h2m := toNat_page_add e va pde2mMask 0x1FFFFF#64 (show 1 ≤ 2 by decide) (by decide) (by decide)
    exact ⟨fun _ h => absurd h (by decide), fun _ => h2m⟩
  · have h1g := toNat_page_add e va pdpte1gMask 0x3FFFFFFF#64 (show 2 ≤ 2 by decide) (by decide) (by decide)
    exact ⟨fun _ h => absurd h (by decide), fun _ => h1g⟩

/-! ## `vmm_translate` -/

/-- **`vmm_translate` and the processor.** For every content of memory and every address: `vmm_translate` returns 0
exactly where the processor finds a page, with the physical address the processor produces, if and only if the address,
should its indices lead to a page, is canonical and, should that page be one of 4 KiB, is the first of the page. -/
theorem vmm_translate_agrees_iff (k : Kern) (va : U64) :
    (k.vmmTranslate va).map BitVec.toNat = mmuTranslate k.mem k.pml4 va ↔
      ∀ t, mmuWalk k.mem 3 k.pml4 (idx va) = some t → Canonical va ∧ (t.level = 0 → va.toNat % pageSize = 0) := by
  rw [Kern.vmmTranslate_eq, ← mmuWalk_walk, mmuTranslate]
  cases hw : mmuWalk k.mem 3 k.pml4 (idx va) with
  | none => simp
  | some t =>
    have hlevel := target_physAddr (mmuWalk_level hw) va
    by_cases hc : Canonical va
    · simp [hc, hlevel]
    · simp [hc]

/-- the byte at 0x400123 of a mapped page: `vmm_translate` stores the address of the page's first byte -/
theorem translate_drops_offset :
    (Kern.onePage 0x5007#64).vmmTranslate 0x400123#64 = some 0x5000#64 ∧
      mmuTranslate (Kern.onePage 0x5007#64).mem 1 0x400123#64 = some 0x5123 := by
  decide +kernel

end Uix
