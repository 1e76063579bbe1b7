/-
Ring buffers of `N` slots with the position of the next slot to fill (`head`) and of the next one to empty (`tail`).
There is no count: the ring is empty if the positions agree, so at most `N - 1` slots are in use.

- `used_eq_zero`, `used_eq_full`: what the two comparisons of positions mean.
- `content_push`, `content_pop`: the ring is a queue.
-/
import Mathlib

namespace Uix

open List Function

structure Ring (α : Type) where
  slots : ℕ → α
  head : ℕ
  tail : ℕ

namespace Ring

variable {α : Type} {N : ℕ} {r : Ring α} {a : α}

/-- the number of slots in use -/
def used (N : ℕ) (r : Ring α) : ℕ := (r.head + N - r.tail) % N

/-- what is in the ring, the oldest first -/
def content (N : ℕ) (r : Ring α) : List α := (List.range (r.used N)).map fun i => r.slots ((r.tail + i) % N)

def push (N : ℕ) (r : Ring α) (a : α) : Ring α :=
  { r with slots := Function.update r.slots r.head a, head := (r.head + 1) % N }

def pop (N : ℕ) (r : Ring α) : Ring α := { r with tail := (r.tail + 1) % N }

/-- the positions are those of slots -/
structure Ok (N : ℕ) (r : Ring α) : Prop where
  head : r.head < N
  tail : r.tail < N

/-! ## Positions -/

theorem next_eq {i : ℕ} (h : i < N) : (i + 1) % N = if i + 1 = N then 0 else i + 1 := by
  split_ifs with he
  · rw [he, Nat.mod_self]
  · exact Nat.mod_eq_of_lt (by omega)

theorem used_eq (h : r.Ok N) : r.used N = if r.tail ≤ r.head then r.head - r.tail else r.head + N - r.tail := by
  have hhead := h.head
  have htail := h.tail
  unfold used
  split_ifs with hle
  · rw [show r.head + N - r.tail = r.head - r.tail + N by omega, Nat.add_mod_right]
    exact Nat.mod_eq_of_lt (by omega)
  · exact Nat.mod_eq_of_lt (by omega)

theorem used_lt (h : r.Ok N) : r.used N < N := Nat.mod_lt _ (lt_of_le_of_lt (Nat.zero_le _) h.head)

theorem used_eq_zero (h : r.Ok N) : r.used N = 0 ↔ r.tail = r.head := by
  have hhead := h.head
  have htail := h.tail
  rw [used_eq h]
  split_ifs <;> omega

theorem used_eq_full (h : r.Ok N) : r.used N = N - 1 ↔ (r.head + 1) % N = r.tail := by
  have hhead := h.head
  have htail := h.tail
  rw [used_eq h, next_eq hhead]
  split_ifs <;> omega

/-- the slot to fill comes after those in use -/
theorem head_eq (h : r.Ok N) : (r.tail + r.used N) % N = r.head := by
  have hhead := h.head
  have htail := h.tail
  rw [used_eq h]
  split_ifs with hle
  · rw [Nat.add_sub_cancel' hle, Nat.mod_eq_of_lt hhead]
  · rw [show r.tail + (r.head + N - r.tail) = r.head + N by omega, Nat.add_mod_right, Nat.mod_eq_of_lt hhead]

/-- the difference of the positions, as it is computed with wrap-around -/
theorem used_sub (h : r.Ok N) : (r.used N : ℤ) = ((r.head : ℤ) - r.tail) % N := by
  have hhead := h.head
  have htail := h.tail
  have hle : r.tail ≤ r.head + N := by omega
  unfold used
  rw [Int.natCast_mod, Int.natCast_sub hle, Int.natCast_add,
    show (r.head : ℤ) + N - r.tail = r.head - r.tail + N by omega, Int.add_emod_right]

/-! ## The queue -/

theorem content_length : (r.content N).length = r.used N := by rw [content, length_map, length_range]

theorem push_ok (h : r.Ok N) (a : α) : (r.push N a).Ok N :=
  ⟨Nat.mod_lt _ (lt_of_le_of_lt (Nat.zero_le _) h.head), h.tail⟩

theorem pop_ok (h : r.Ok N) : (r.pop N).Ok N := ⟨h.head, Nat.mod_lt _ (lt_of_le_of_lt (Nat.zero_le _) h.head)⟩

theorem used_push (h : r.Ok N) (hroom : (r.head + 1) % N ≠ r.tail) : (r.push N a).used N = r.used N + 1 := by
  have hhead := h.head
  have htail := h.tail
  rw [used_eq (push_ok h a), used_eq h]
  rw [next_eq hhead] at hroom
  simp only [push, next_eq hhead]
  split_ifs at hroom ⊢ <;> omega

theorem used_pop (h : r.Ok N) (hne : r.tail ≠ r.head) : (r.pop N).used N + 1 = r.used N := by
  have hhead := h.head
  have htail := h.tail
  rw [used_eq (pop_ok h), used_eq h]
  simp only [pop, next_eq htail]
  split_ifs <;> omega

/-- **A push** adds at the end. The slots in use are others than the one filled. -/
theorem content_push (h : r.Ok N) (hroom : (r.head + 1) % N ≠ r.tail) :
    (r.push N a).content N = r.content N ++ [a] := by
  have hfull := mt (used_eq_full h).1 hroom
  have hlt := used_lt h
  rw [content, used_push h hroom, range_succ, map_append, map_singleton]
  refine congrArg₂ _ (map_congr_left fun i hi => ?_) ?_
  · rw [mem_range] at hi
    have hne : (r.tail + i) % N ≠ r.head := by
      rw [← head_eq h]
      intro hc
      have := Nat.ModEq.add_left_cancel' r.tail (show r.tail + i ≡ r.tail + r.used N [MOD N] from hc)
      rw [Nat.ModEq, Nat.mod_eq_of_lt (by omega), Nat.mod_eq_of_lt hlt] at this
      omega
    exact update_of_ne hne _ _
  · change [update r.slots r.head a ((r.tail + r.used N) % N)] = [a]
    rw [head_eq h, update_self]

/-- **A pop** takes from the front. -/
theorem content_pop (h : r.Ok N) (hne : r.tail ≠ r.head) : r.content N = r.slots r.tail :: (r.pop N).content N := by
  rw [content, ← used_pop h hne, range_succ_eq_map, map_cons, map_map, Nat.add_zero, Nat.mod_eq_of_lt h.tail]
  refine congrArg _ (map_congr_left fun i _ => ?_)
  change r.slots ((r.tail + (i + 1)) % N) = r.slots (((r.tail + 1) % N + i) % N)
  rw [Nat.mod_add_mod, Nat.add_assoc, Nat.add_comm 1]

end Ring

end Uix
