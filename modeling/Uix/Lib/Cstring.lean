/-
C strings in a byte memory `ℕ → BitVec 8`.

- `write`: the first bytes of a sequence, stored from an address on; `write_succ` is one store more.
- `StringAt`: the characters before the NUL at an address. There is at most one such list (`StringAt.unique`).
- `readString`: the loop up to the NUL, with a bound on its rounds; `StringAt.read` says what it finds.
-/
import Uix.Types

namespace Uix.Cstring

open List Function

variable {m : ℕ → BitVec 8} {a n x : ℕ} {f : ℕ → BitVec 8} {s t : List (BitVec 8)}

/-! ## Stores -/

/-- the bytes `f 0`, …, `f (n - 1)` stored from `a` on -/
def write (m : ℕ → BitVec 8) (a : ℕ) (f : ℕ → BitVec 8) (n : ℕ) : ℕ → BitVec 8 :=
  fun x => if a ≤ x ∧ x < a + n then f (x - a) else m x

@[simp] theorem write_zero (m : ℕ → BitVec 8) (a : ℕ) (f : ℕ → BitVec 8) : write m a f 0 = m := by
  funext x
  simp only [write]
  rw [if_neg (by omega)]

/-- a byte stored -/
theorem write_at {i : ℕ} (hi : i < n) : write m a f n (a + i) = f i := by
  simp only [write]
  rw [if_pos (by omega), Nat.add_sub_cancel_left]

/-- a byte beside them -/
theorem write_outside (hx : x < a ∨ a + n ≤ x) : write m a f n x = m x := by
  simp only [write]
  rw [if_neg (by omega)]

/-- **One store more.** -/
theorem write_succ (m : ℕ → BitVec 8) (a : ℕ) (f : ℕ → BitVec 8) (n : ℕ) :
    update (write m a f n) (a + n) (f n) = write m a f (n + 1) := by
  funext x
  by_cases hx : x = a + n
  · subst hx
    rw [update_self, write_at (Nat.lt_succ_self n)]
  · rw [update_of_ne hx]
    simp only [write]
    by_cases hin : a ≤ x ∧ x < a + n
    · rw [if_pos hin, if_pos (by omega)]
    · rw [if_neg hin, if_neg (by omega)]

/-! ## Strings -/

/-- the string at `a`: these characters, and then a NUL -/
structure StringAt (m : ℕ → BitVec 8) (a : ℕ) (s : List (BitVec 8)) : Prop where
  bytes : ∀ i ≤ s.length, m (a + i) = s.getD i 0
  nulFree : 0 ∉ s

theorem StringAt.nul (h : StringAt m a s) : m (a + s.length) = 0 := by
  rw [h.bytes _ le_rfl, getD_eq_default _ _ le_rfl]

theorem StringAt.char_ne (h : StringAt m a s) {i : ℕ} (hi : i < s.length) : m (a + i) ≠ 0 := by
  rw [h.bytes i hi.le, getD_eq_getElem _ _ hi]
  intro hc
  exact h.nulFree (hc ▸ getElem_mem hi)

theorem StringAt.tail {c : BitVec 8} (h : StringAt m a (c :: s)) : StringAt m (a + 1) s := by
  refine ⟨fun i hi => ?_, fun hc => h.nulFree (mem_cons_of_mem _ hc)⟩
  rw [Nat.add_assoc, Nat.add_comm 1 i]
  exact h.bytes (i + 1) (Nat.succ_le_succ hi)

theorem StringAt.length_eq (h : StringAt m a s) (h' : StringAt m a t) : s.length = t.length := by
  rcases Nat.lt_trichotomy s.length t.length with hlt | heq | hgt
  · exact absurd h.nul (h'.char_ne hlt)
  · exact heq
  · exact absurd h'.nul (h.char_ne hgt)

theorem StringAt.unique (h : StringAt m a s) (h' : StringAt m a t) : s = t := by
  have hlen := h.length_eq h'
  apply ext_getElem hlen
  intro i hi hi'
  have hs := h.bytes i hi.le
  rw [h'.bytes i hi'.le, getD_eq_getElem _ _ hi, getD_eq_getElem _ _ hi'] at hs
  exact hs.symm

/-- a string and its NUL, just stored -/
theorem stringAt_write (m : ℕ → BitVec 8) (a : ℕ) (hs : 0 ∉ s) : StringAt (write m a (s.getD · 0) (s.length + 1)) a s :=
  ⟨fun _ hi => write_at (Nat.lt_succ_of_le hi), hs⟩

/-! ## Reading -/

/-- `while (*s) ...`: the characters up to the NUL, within `n` rounds -/
def readString (m : ℕ → BitVec 8) : ℕ → ℕ → Except Stop (List (BitVec 8))
  | 0, _ => .error .hang
  | n + 1, a =>
    if m a = 0 then pure [] else do
      let s ← readString m n (a + 1)
      pure (m a :: s)

theorem StringAt.read (h : StringAt m a s) (hn : s.length < n) : readString m n a = .ok s := by
  induction s generalizing a n with
  | nil =>
    cases n with
    | zero => exact absurd hn (Nat.not_lt_zero _)
    | succ n =>
      have hnul : m a = 0 := h.nul
      rw [readString, if_pos hnul]
      rfl
  | cons c s ih =>
    cases n with
    | zero => exact absurd hn (Nat.not_lt_zero _)
    | succ n =>
      have hc : m a = c := h.bytes 0 (Nat.zero_le _)
      have hne : m a ≠ 0 := h.char_ne (Nat.succ_pos _)
      rw [readString, if_neg hne, ih h.tail (Nat.lt_of_succ_lt_succ hn), hc]
      rfl

end Uix.Cstring
