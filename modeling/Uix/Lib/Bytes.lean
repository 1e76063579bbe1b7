/-
Little-endian numbers in a byte memory `ℕ → BitVec 8`, and bytes in a row of 64-bit words.

- `load_store_same`: reading back the bytes just written.
- `load_store_of_disjoint`: a write does not disturb a disjoint read.
- `load_congr`: a read depends only on its own bytes.
- `getByte_setByte`: one byte of a row changed.
-/
import Mathlib

namespace Uix.Bytes

open Function

/-- the number in the `n` bytes from `a` on -/
def load (m : ℕ → BitVec 8) (a : ℕ) : ℕ → ℕ
  | 0 => 0
  | n + 1 => (m a).toNat + 256 * load m (a + 1) n

/-- write the low `n` bytes of `v` from `a` on -/
def store (m : ℕ → BitVec 8) (a n v : ℕ) : ℕ → BitVec 8 :=
  fun x => if a ≤ x ∧ x < a + n then BitVec.ofNat 8 (v / 256 ^ (x - a)) else m x

theorem load_lt (m : ℕ → BitVec 8) (a n : ℕ) : load m a n < 256 ^ n := by
  induction n generalizing a with
  | zero => simp [load]
  | succ n ih =>
    have h1 := ih (a + 1)
    have h2 := (m a).isLt
    rw [load, pow_succ]
    omega

/-- a read depends only on its own bytes -/
theorem load_congr {m m' : ℕ → BitVec 8} {a n : ℕ} (h : ∀ x, a ≤ x → x < a + n → m' x = m x) :
    load m' a n = load m a n := by
  induction n generalizing a with
  | zero => rfl
  | succ n ih =>
    rw [load, load, h a le_rfl (by omega), ih fun x h1 h2 => h x (by omega) (by omega)]

theorem store_of_lt {m : ℕ → BitVec 8} {a n v x : ℕ} (h : x < a ∨ a + n ≤ x) : store m a n v x = m x := by
  unfold store
  rw [if_neg (by omega)]

theorem load_store_of_disjoint {m : ℕ → BitVec 8} {a n v b k : ℕ} (h : a + n ≤ b ∨ b + k ≤ a) :
    load (store m a n v) b k = load m b k :=
  load_congr fun x h1 h2 => store_of_lt (by omega)

/-- the first byte of a write, and the rest of it -/
theorem store_succ (m : ℕ → BitVec 8) (a n v : ℕ) :
    store m a (n + 1) v = store (update m a (BitVec.ofNat 8 v)) (a + 1) n (v / 256) := by
  funext x
  unfold store
  by_cases hx : x = a
  · subst hx; simp
  · rw [update_of_ne hx]
    by_cases h : a ≤ x ∧ x < a + (n + 1)
    · rw [if_pos h, if_pos (by omega), show x - a = (x - (a + 1)) + 1 by omega, pow_succ, Nat.div_div_eq_div_mul,
        Nat.mul_comm]
    · rw [if_neg h, if_neg (by omega)]

theorem load_store_same (m : ℕ → BitVec 8) (a n v : ℕ) : load (store m a n v) a n = v % 256 ^ n := by
  induction n generalizing m a v with
  | zero => simp [load, Nat.mod_one]
  | succ n ih =>
    rw [store_succ, load, ih, store_of_lt (Or.inl (by omega)), update_self, BitVec.toNat_ofNat]
    rw [show 256 ^ (n + 1) = 256 * 256 ^ n by ring, Nat.mod_mul]

theorem load_store_eq {m : ℕ → BitVec 8} {a n v : ℕ} (h : v < 256 ^ n) : load (store m a n v) a n = v := by
  rw [load_store_same, Nat.mod_eq_of_lt h]

/-! ## Bytes of words -/

/-- byte `o` of a row of words -/
def getByte {n : ℕ} [NeZero n] (row : Fin n → BitVec 64) (o : ℕ) : BitVec 8 :=
  (row (Fin.ofNat n (o / 8))).extractLsb' (8 * (o % 8)) 8

/-- the word with the eight bits from `s` on replaced by `b` -/
def insertByte (w : BitVec 64) (s : ℕ) (b : BitVec 8) : BitVec 64 :=
  (w &&& ~~~ (0xFF#64 <<< s)) ||| (b.setWidth 64 <<< s)

/-- a row with byte `o` replaced -/
def setByte {n : ℕ} [NeZero n] (row : Fin n → BitVec 64) (o : ℕ) (b : BitVec 8) : Fin n → BitVec 64 :=
  Function.update row (Fin.ofNat n (o / 8)) (insertByte (row (Fin.ofNat n (o / 8))) (8 * (o % 8)) b)

theorem getLsbD_ff (i : ℕ) : (0xFF#64).getLsbD i = decide (i < 8) := by
  by_cases h : i < 8
  · interval_cases i <;> rfl
  · rw [decide_eq_false h]
    exact BitVec.getLsbD_of_ge (0xFF#8) i (by omega)

theorem insertByte_same (w : BitVec 64) (b : BitVec 8) {s : ℕ} (hs : s + 8 ≤ 64) :
    (insertByte w s b).extractLsb' s 8 = b := by
  apply BitVec.eq_of_getLsbD_eq
  intro i hi
  simp only [insertByte, BitVec.getLsbD_extractLsb', BitVec.getLsbD_or, BitVec.getLsbD_and, BitVec.getLsbD_not,
    BitVec.getLsbD_shiftLeft, getLsbD_ff, BitVec.getLsbD_setWidth]
  simp [hi, show s + i < 64 by omega, show i < 64 by omega]

theorem insertByte_other (w : BitVec 64) (b : BitVec 8) {s t : ℕ} (ht : t + 8 ≤ 64) (h : s + 8 ≤ t ∨ t + 8 ≤ s) :
    (insertByte w s b).extractLsb' t 8 = w.extractLsb' t 8 := by
  apply BitVec.eq_of_getLsbD_eq
  intro i hi
  simp only [insertByte, BitVec.getLsbD_extractLsb', BitVec.getLsbD_or, BitVec.getLsbD_and, BitVec.getLsbD_not,
    BitVec.getLsbD_shiftLeft, getLsbD_ff, BitVec.getLsbD_setWidth]
  by_cases hst : t + i < s
  · simp [hi, hst, show t + i < 64 by omega]
  · have h8 : ¬ t + i - s < 8 := by omega
    simp [hi, hst, h8, show t + i < 64 by omega, show t + i - s < 64 by omega,
      BitVec.getLsbD_of_ge b (t + i - s) (by omega)]

/-- **One byte changed.** -/
theorem getByte_setByte {n : ℕ} [NeZero n] (row : Fin n → BitVec 64) {o o' : ℕ} (b : BitVec 8) (ho : o < 8 * n)
    (ho' : o' < 8 * n) : getByte (setByte row o b) o' = if o' = o then b else getByte row o' := by
  have hlt : o / 8 < n := by omega
  have hlt' : o' / 8 < n := by omega
  by_cases hw : o' / 8 = o / 8
  · simp only [getByte, setByte, hw, update_self]
    by_cases h : o' = o
    · rw [if_pos h, h, insertByte_same _ _ (by omega)]
    · rw [if_neg h, insertByte_other _ _ (by omega) (by omega)]
  · have hne : Fin.ofNat n (o' / 8) ≠ Fin.ofNat n (o / 8) := by
      rw [Ne, Fin.ext_iff]
      simp only [Fin.ofNat, Nat.mod_eq_of_lt hlt, Nat.mod_eq_of_lt hlt']
      exact hw
    rw [if_neg fun h : o' = o => hw (h ▸ rfl), getByte, setByte, update_of_ne hne, getByte]

end Uix.Bytes
