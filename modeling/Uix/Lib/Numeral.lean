/-
Numerals in a base, the most significant digit first.

- `value`: the number that digits denote.
- `Canonical`: digits of the base without a leading zero; `digits` are those of a number, and they are the only ones
  (`Canonical.eq_digits`).
- `length_digits_le`: how many there are.
-/
import Mathlib

namespace Uix.Numeral

open List

variable {base v : ℕ} {ds : List ℕ}

/-- the number denoted by digits -/
def value (base : ℕ) (ds : List ℕ) : ℕ := ds.foldl (fun v d => v * base + d) 0

/-- the numeral of `v`: digits of the base, with a leading zero only if it is the only digit -/
structure Canonical (base v : ℕ) (ds : List ℕ) : Prop where
  nonempty : ds ≠ []
  digit : ∀ d ∈ ds, d < base
  value_eq : value base ds = v
  lead : ds.head? = some 0 → ds = [0]

/-- the digits of a number -/
def digits (base v : ℕ) : List ℕ := if v = 0 then [0] else (base.digits v).reverse

theorem value_reverse (base : ℕ) (ds : List ℕ) : value base ds.reverse = Nat.ofDigits base ds := by
  rw [value, foldl_reverse, Nat.ofDigits_eq_foldr]
  congr 1
  funext x y
  rw [Nat.cast_id, Nat.mul_comm, Nat.add_comm]

/-- **Digits are canonical.** -/
theorem digits_canonical (hb : 1 < base) (v : ℕ) : Canonical base v (digits base v) := by
  by_cases hv : v = 0
  · subst hv
    rw [digits, if_pos rfl]
    refine ⟨cons_ne_nil _ _, fun d hd => ?_, by simp [value], fun _ => rfl⟩
    rw [mem_singleton.1 hd]
    omega
  · have hne : base.digits v ≠ [] := Nat.digits_ne_nil_iff_ne_zero.2 hv
    rw [digits, if_neg hv]
    refine ⟨fun hc => hne (reverse_eq_nil_iff.1 hc), fun d hd => ?_, ?_, fun hz => ?_⟩
    · exact Nat.digits_lt_base hb (mem_reverse.1 hd)
    · rw [value_reverse, Nat.ofDigits_digits]
    · rw [head?_reverse, getLast?_eq_getLast_of_ne_nil hne, Option.some.injEq] at hz
      exact absurd hz (Nat.getLast_digit_ne_zero base hv)

/-- **There are no others.** -/
theorem Canonical.eq_digits (hb : 1 < base) (h : Canonical base v ds) : ds = digits base v := by
  by_cases hz : ds.head? = some 0
  · have hds := h.lead hz
    have hv : v = 0 := by rw [← h.value_eq, hds]; simp [value]
    rw [hds, hv, digits, if_pos rfl]
  · -- without a leading zero, they are Mathlib's digits of their value
    have hdigits : base.digits v = ds.reverse := by
      rw [← h.value_eq, ← reverse_reverse ds, value_reverse, reverse_reverse]
      refine Nat.digits_ofDigits base hb _ (fun d hd => h.digit d (mem_reverse.1 hd)) fun hne hlast => hz ?_
      rw [← getLast?_reverse, getLast?_eq_getLast_of_ne_nil hne, hlast]
    have hv : v ≠ 0 := by
      intro hc
      rw [hc, Nat.digits_zero] at hdigits
      exact h.nonempty (reverse_eq_nil_iff.1 hdigits.symm)
    rw [digits, if_neg hv, hdigits, reverse_reverse]

/-- the number of digits -/
theorem length_digits_le (hb : 1 < base) {k : ℕ} (hk : 0 < k) : (digits base v).length ≤ k ↔ v < base ^ k := by
  by_cases hv : v = 0
  · subst hv
    rw [digits, if_pos rfl]
    exact iff_of_true hk (Nat.pow_pos (by omega))
  · rw [digits, if_neg hv, length_reverse, Nat.digits_length_le_iff hb]

end Uix.Numeral
