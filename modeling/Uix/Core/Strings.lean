/-
`strncpy` (`src/core/lib.c`) on a byte memory, for any source string, count and destination. Its first loop stops after
a NUL was stored, but before it is counted, so the second one stores a NUL too many: when the source is shorter than
`n`, the byte at `dst + n` is cleared.

The loop reads while it writes. A destination that starts inside the part of the source still to be read makes it copy
the bytes before that over and over, and it never comes to the NUL.

- `copyLoop_run`: some rounds of the first loop, for any bytes that they read.
- `strncpy_short`, `strncpy_long`, `strncpy_trailing`: memory afterwards.
- `strncpy_exact_iff`: when exactly `n` bytes are written, with the right contents.
- `strncpy_clears_next`: an empty string copied with `n = 1`.
-/
import Uix.Lib.Cstring

namespace Uix

open Cstring List Function

/-! ## The two loops -/

/-- `while (n && (*d++ = *src++)) n--;`: memory, `d` and `n` after it -/
def copyLoop (m : ℕ → BitVec 8) (d src : ℕ) : ℕ → (ℕ → BitVec 8) × ℕ × ℕ
  | 0 => (m, d, 0)
  | n + 1 =>
    if m src = 0 then (Function.update m d (m src), d + 1, n + 1)
    else copyLoop (Function.update m d (m src)) (d + 1) (src + 1) n

/-- `while (n--) *d++ = '\0';` -/
def padLoop (m : ℕ → BitVec 8) (d : ℕ) : ℕ → ℕ → BitVec 8
  | 0 => m
  | n + 1 => padLoop (Function.update m d 0) (d + 1) n

/-- `strncpy`: the pointer returned and memory -/
def strncpy (m : ℕ → BitVec 8) (dst src n : ℕ) : ℕ × (ℕ → BitVec 8) :=
  let (m, d, n) := copyLoop m dst src n
  (dst, padLoop m d n)

/-- the bytes of the source up to `n`, zeros behind them, and nothing else changed -/
structure WritesExactly (m m' : ℕ → BitVec 8) (dst : ℕ) (s : List (BitVec 8)) (n : ℕ) : Prop where
  copied : ∀ k < min n s.length, m' (dst + k) = s.getD k 0
  padded : ∀ k, s.length ≤ k → k < n → m' (dst + k) = 0
  frame : ∀ x, x < dst ∨ dst + n ≤ x → m' x = m x

/-- the destination starts behind the source, inside the part of it that is still read -/
def Trails (dst src len n : ℕ) : Prop := src < dst ∧ dst < src + n ∧ dst ≤ src + len

instance (dst src len n : ℕ) : Decidable (Trails dst src len n) := inferInstanceAs (Decidable (_ ∧ _ ∧ _))

/-! ## Memory afterwards -/

section Loops

variable {m : ℕ → BitVec 8} {dst src n : ℕ} {s : List (BitVec 8)} {f : ℕ → BitVec 8}

/-- **Some rounds of the first loop**: `f` is what they read, and the NUL is not among it. -/
theorem copyLoop_run {k c : ℕ} (hread : ∀ i, k ≤ i → i < k + c → write m dst f i (src + i) = f i)
    (hne : ∀ i, k ≤ i → i < k + c → f i ≠ 0) :
    copyLoop (write m dst f k) (dst + k) (src + k) (c + n) =
      copyLoop (write m dst f (k + c)) (dst + (k + c)) (src + (k + c)) n := by
  induction c generalizing k with
  | zero => rw [Nat.zero_add, Nat.add_zero]
  | succ c ih =>
    have hk : write m dst f k (src + k) = f k := hread k le_rfl (by omega)
    rw [show c + 1 + n = c + n + 1 by omega, copyLoop, hk, if_neg (hne k le_rfl (by omega)), write_succ,
      Nat.add_assoc dst, Nat.add_assoc src]
    rw [ih (fun i h1 h2 => hread i (by omega) (by omega)) (fun i h1 h2 => hne i (by omega) (by omega)),
      show k + 1 + c = k + (c + 1) by omega]

theorem padLoop_eq (m : ℕ → BitVec 8) (d n : ℕ) : padLoop m d n = write m d (fun _ => 0) n := by
  induction n generalizing m d with
  | zero => simp [padLoop]
  | succ n ih =>
    rw [padLoop, ih]
    funext x
    simp only [write]
    by_cases hx : x = d
    · subst hx
      rw [if_neg (by omega), update_self, if_pos (by omega)]
    · rw [update_of_ne hx]
      by_cases hin : d + 1 ≤ x ∧ x < d + 1 + n
      · rw [if_pos hin, if_pos (by omega)]
      · rw [if_neg hin, if_neg (by omega)]

/-- **No NUL among the first `n` bytes read**: the second loop does nothing. -/
theorem strncpy_full (hread : ∀ i < n, write m dst f i (src + i) = f i) (hne : ∀ i < n, f i ≠ 0) :
    strncpy m dst src n = (dst, write m dst f n) := by
  have hrun := @copyLoop_run m dst src 0 f 0 n (fun i _ hi => hread i (by omega)) (fun i _ hi => hne i (by omega))
  simp only [write_zero, Nat.add_zero, Nat.zero_add, copyLoop] at hrun
  simp only [strncpy, hrun, padLoop]

/-- when the reads meet nothing that was written, they find the source -/
theorem read_source (h : StringAt m src s) (ht : ¬ Trails dst src s.length n) {i : ℕ} (hi : i < n) (hs : i ≤ s.length) :
    write m dst (s.getD · 0) i (src + i) = s.getD i 0 := by
  rw [write_outside, h.bytes i hs]
  unfold Trails at ht
  omega

theorem getD_ne (h : StringAt m src s) {i : ℕ} (hi : i < s.length) : s.getD i 0 ≠ 0 := by
  rw [← h.bytes i hi.le]
  exact h.char_ne hi

/-- **A source of at least `n` characters.** -/
theorem strncpy_long (h : StringAt m src s) (ht : ¬ Trails dst src s.length n) (hn : n ≤ s.length) :
    strncpy m dst src n = (dst, write m dst (s.getD · 0) n) := by
  apply strncpy_full
  · intro i hi
    exact read_source h ht hi (by omega)
  · intro i hi
    exact getD_ne h (by omega)

/-- **A shorter source**: a NUL too many. -/
theorem strncpy_short (h : StringAt m src s) (ht : ¬ Trails dst src s.length n) (hn : s.length < n) :
    strncpy m dst src n = (dst, write m dst (s.getD · 0) (n + 1)) := by
  obtain ⟨c, rfl⟩ : ∃ c, n = s.length + (c + 1) := ⟨n - s.length - 1, by omega⟩
  have hrun := @copyLoop_run m dst src (c + 1) (s.getD · 0) 0 s.length
    (fun i _ hi => read_source h ht (by omega) (by omega)) (fun i _ hi => getD_ne h (by omega))
  have hnul : write m dst (s.getD · 0) s.length (src + s.length) = 0 := by
    rw [read_source h ht (by omega) le_rfl, getD_eq_default _ _ le_rfl]
  have hstore := write_succ m dst (s.getD · 0) s.length
  rw [getD_eq_default _ _ le_rfl] at hstore
  simp only [write_zero, Nat.add_zero, Nat.zero_add] at hrun
  rw [copyLoop, if_pos hnul, hnul, hstore] at hrun
  simp only [strncpy, hrun, padLoop_eq]
  congr 1
  funext x
  -- both sides hold zeros from the end of the source on
  simp only [write]
  by_cases h1 : dst + s.length + 1 ≤ x ∧ x < dst + s.length + 1 + (c + 1)
  · rw [if_pos h1, if_pos (by omega), getD_eq_default _ _ (by omega)]
  · rw [if_neg h1]
    by_cases h2 : dst ≤ x ∧ x < dst + (s.length + 1)
    · rw [if_pos h2, if_pos (by omega)]
    · rw [if_neg h2, if_neg (by omega)]

/-- **A destination inside the source**: its bytes before the destination, over and over. -/
theorem strncpy_trailing (h : StringAt m src s) (ht : Trails dst src s.length n) :
    strncpy m dst src n = (dst, write m dst (fun i => s.getD (i % (dst - src)) 0) n) := by
  obtain ⟨h1, h2, h3⟩ := ht
  have hmod : ∀ i, i % (dst - src) < s.length := by
    intro i
    have := Nat.mod_lt i (show 0 < dst - src by omega)
    omega
  apply strncpy_full
  · intro i hi
    by_cases hold : i < dst - src
    · rw [write_outside (by omega), Nat.mod_eq_of_lt hold, h.bytes i (by omega)]
    · rw [show src + i = dst + (i - (dst - src)) by omega, write_at (by omega), ← Nat.mod_eq_sub_mod (by omega)]
  · intro i _
    exact getD_ne h (hmod i)

end Loops

/-! ## Exactly `n` bytes -/

/-- **When `strncpy` writes exactly `n` bytes**: the source has at least `n` characters, or the byte behind the
destination is 0 already; and if the destination lies inside the source, the source repeats from there on. -/
theorem strncpy_exact_iff (m : ℕ → BitVec 8) (dst src n : ℕ) (s : List (BitVec 8)) (h : StringAt m src s) :
    WritesExactly m (strncpy m dst src n).2 dst s n ↔
      if Trails dst src s.length n then n ≤ s.length ∧ ∀ k < n, s.getD k 0 = s.getD (k % (dst - src)) 0
      else n ≤ s.length ∨ m (dst + n) = 0 := by
  by_cases ht : Trails dst src s.length n
  · have hmem : (strncpy m dst src n).2 = write m dst (fun i => s.getD (i % (dst - src)) 0) n := by
      rw [strncpy_trailing h ht]
    have hgap : 0 < dst - src ∧ dst - src ≤ s.length := by
      unfold Trails at ht
      omega
    rw [if_pos ht, hmem]
    constructor
    · intro hw
      have hle : n ≤ s.length := by
        by_contra hlt
        have hz := hw.padded s.length le_rfl (by omega)
        rw [write_at (by omega)] at hz
        exact getD_ne h (lt_of_lt_of_le (Nat.mod_lt _ hgap.1) hgap.2) hz
      refine ⟨hle, fun k hk => ?_⟩
      rw [← hw.copied k (by omega), write_at hk]
    · rintro ⟨hle, hrep⟩
      refine ⟨fun k hk => ?_, fun k h1 h2 => absurd h1 (by omega), fun x hx => write_outside hx⟩
      rw [write_at (by omega), hrep k (by omega)]
  · rw [if_neg ht]
    rcases Nat.lt_or_ge s.length n with hlt | hge
    · have hmem : (strncpy m dst src n).2 = write m dst (s.getD · 0) (n + 1) := by
        rw [strncpy_short h ht hlt]
      have hend : s.getD n 0 = 0 := List.getD_eq_default _ _ hlt.le
      rw [hmem]
      constructor
      · intro hw
        have hz := hw.frame (dst + n) (Or.inr le_rfl)
        rw [write_at (Nat.lt_succ_self n), hend] at hz
        exact Or.inr hz.symm
      · intro hc
        have hnul : m (dst + n) = 0 := hc.resolve_left (by omega)
        refine ⟨fun k hk => ?_, fun k h1 h2 => ?_, fun x hx => ?_⟩
        · rw [write_at (by omega)]
        · rw [write_at (by omega), List.getD_eq_default _ _ h1]
        · by_cases hx' : x = dst + n
          · rw [hx', hnul, write_at (Nat.lt_succ_self n), hend]
          · exact write_outside (by omega)
    · have hmem : (strncpy m dst src n).2 = write m dst (s.getD · 0) n := by
        rw [strncpy_long h ht hge]
      rw [hmem]
      refine iff_of_true ⟨fun k hk => ?_, fun k h1 h2 => absurd h1 (by omega), fun x hx => write_outside hx⟩
        (Or.inl hge)
      rw [write_at (by omega)]

/-- memory that holds 0x2A everywhere but at 8 -/
def starred : ℕ → BitVec 8 := fun x => if x = 8 then 0 else 0x2A

/-- **The byte behind the destination is cleared**: an empty string, copied with `n = 1`. -/
theorem strncpy_clears_next : StringAt starred 8 [] ∧ (strncpy starred 0 8 1).2 1 = 0 ∧ starred 1 = 0x2A ∧
    ¬ WritesExactly starred (strncpy starred 0 8 1).2 0 [] 1 := by
  refine ⟨⟨fun i hi => ?_, List.not_mem_nil⟩, by decide, by decide, fun hw => ?_⟩
  · obtain rfl : i = 0 := Nat.le_zero.1 hi
    rfl
  · have := hw.frame 1 (Or.inr le_rfl)
    revert this
    decide

/-- two characters copied from a string of two -/
theorem strncpy_two_exact : StringAt starred 6 [0x2A, 0x2A] ∧
    WritesExactly starred (strncpy starred 0 6 2).2 0 [0x2A, 0x2A] 2 := by
  have hstr : StringAt starred 6 [0x2A, 0x2A] := by
    refine ⟨fun i hi => ?_, by decide⟩
    have : i ≤ 2 := hi
    interval_cases i <;> decide
  refine ⟨hstr, (strncpy_exact_iff starred 0 6 2 _ hstr).2 ?_⟩
  rw [if_neg (by decide)]
  exact Or.inl le_rfl

end Uix
