/-
`uix_utoa` and `uix_itoa` (`src/core/lib.c`). The digits of a number are stored in `tmp`, the least significant first,
and then copied back to front. A store behind the 32 bytes of `tmp` is `Stop.wild`: in base 2 and base 3 large numbers
have more digits.

- `digitLoop_eq`: the loop stores the digits of the number, if there is room for them.
- `uixUtoa_eq`: the string in `buf`, or a store behind `tmp`.
- `utoa_fits_iff`: `uix_utoa` writes the canonical numeral exactly if the number has at most 32 digits.
- `utoa_overruns`: 2^32 in base 2.
- `itoa_exact`: `uix_itoa` in base 10, for every number.
-/
import Uix.Lib.Cstring
import Uix.Lib.Machine
import Uix.Lib.Numeral

namespace Uix

open Cstring Numeral Machine List Function

/-! ## `uix_utoa` -/

/-- `"0123456789abcdef"` or `"0123456789ABCDEF"` -/
def lut (upper : Bool) : List (BitVec 8) :=
  [0x30, 0x31, 0x32, 0x33, 0x34, 0x35, 0x36, 0x37, 0x38, 0x39] ++
    if upper then [0x41, 0x42, 0x43, 0x44, 0x45, 0x46] else [0x61, 0x62, 0x63, 0x64, 0x65, 0x66]

/-- `lut[d]` -/
def digitChar (upper : Bool) (d : ℕ) : BitVec 8 := (lut upper).getD d 0

/-- `while (v) { tmp[i++] = lut[v % base]; v /= base; }`, with `room` bytes of `tmp` left -/
def digitLoop (upper : Bool) (base : ℕ) : ℕ → ℕ → List (BitVec 8) → Except Stop (List (BitVec 8))
  | 0, v, tmp => if v = 0 then pure tmp else .error .wild
  | room + 1, v, tmp =>
    if v = 0 then pure tmp else digitLoop upper base room (v / base) (tmp ++ [digitChar upper (v % base)])

/-- `while (i--) *p++ = tmp[i];`: memory and `p` after it -/
def copyBack (tmp : List (BitVec 8)) : ℕ → (ℕ → BitVec 8) → ℕ → (ℕ → BitVec 8) × ℕ
  | 0, m, p => (m, p)
  | i + 1, m, p => copyBack tmp i (Function.update m p (tmp.getD i 0)) (p + 1)

/-- `uix_utoa`: the pointer returned and memory -/
def uixUtoa (v : U64) (m : ℕ → BitVec 8) (buf : ℕ) (base : BitVec 32) (upper : Bool) :
    Except Stop (ℕ × (ℕ → BitVec 8)) := do
  let base := if base < 2 ∨ 16 < base then 10 else base
  let tmp := if v = 0 then [0x30#8] else []
  let tmp ← digitLoop upper base.toNat (32 - tmp.length) v.toNat tmp
  let (m, p) := copyBack tmp tmp.length m buf
  pure (buf, Function.update m p 0)

/-- the numeral of a number as text -/
def numeral (upper : Bool) (base v : ℕ) : List (BitVec 8) := (digits base v).map (digitChar upper)

section Utoa

variable {upper : Bool} {base v : ℕ} {m : ℕ → BitVec 8} {tmp : List (BitVec 8)}

/-- **The loop** stores the digits of `v`, if there is room for them. -/
theorem digitLoop_eq (hb : 1 < base) (room v : ℕ) (tmp : List (BitVec 8)) : digitLoop upper base room v tmp =
    if (base.digits v).length ≤ room then .ok (tmp ++ (base.digits v).map (digitChar upper)) else .error .wild := by
  induction room generalizing v tmp with
  | zero =>
    rw [digitLoop]
    by_cases hv : v = 0
    · simp [hv, pure_eq_ok]
    · have hne : base.digits v ≠ [] := Nat.digits_ne_nil_iff_ne_zero.2 hv
      simp [hv, hne]
  | succ room ih =>
    rw [digitLoop]
    by_cases hv : v = 0
    · simp [hv, pure_eq_ok]
    · rw [if_neg hv, ih, Nat.digits_def' hb (Nat.pos_of_ne_zero hv)]
      simp only [length_cons, Nat.add_le_add_iff_right, map_cons, append_assoc, singleton_append]

/-- some rounds of the copy: the bytes of `tmp` from the end on -/
theorem copyBack_run {p i k : ℕ} (hi : k + i = tmp.length) :
    copyBack tmp i (write m p (tmp.reverse.getD · 0) k) (p + k) =
      (write m p (tmp.reverse.getD · 0) tmp.length, p + tmp.length) := by
  induction i generalizing k with
  | zero =>
    obtain rfl : k = tmp.length := by omega
    rfl
  | succ i ih =>
    have hk : tmp.getD i 0 = tmp.reverse.getD k 0 := by
      have hback : tmp.length - 1 - k = i := by omega
      rw [getD_reverse k (by omega), hback]
    rw [copyBack, hk, write_succ, Nat.add_assoc]
    exact ih (by omega)

theorem copyBack_eq (tmp : List (BitVec 8)) (m : ℕ → BitVec 8) (p : ℕ) :
    copyBack tmp tmp.length m p = (write m p (tmp.reverse.getD · 0) tmp.length, p + tmp.length) := by
  have hrun := @copyBack_run m tmp p tmp.length 0 (Nat.zero_add _)
  rwa [write_zero, Nat.add_zero] at hrun

theorem numeral_ne_nul (hb : 1 < base) (h16 : base ≤ 16) (v : ℕ) : 0 ∉ numeral upper base v := by
  have hchar : ∀ upper, ∀ d < 16, digitChar upper d ≠ 0 := by decide
  intro hc
  obtain ⟨d, hd, h0⟩ := mem_map.1 hc
  exact hchar upper d (lt_of_lt_of_le ((digits_canonical hb v).digit d hd) h16) h0

/-- **`uix_utoa`** in a base from 2 to 16: the numeral and its NUL, or a store behind `tmp`. -/
theorem uixUtoa_eq {b : BitVec 32} (hb : 2 ≤ b.toNat) (h16 : b.toNat ≤ 16) (v : U64) (m : ℕ → BitVec 8) (buf : ℕ)
    (upper : Bool) : uixUtoa v m buf b upper =
      if v.toNat < b.toNat ^ 32 then
        .ok (buf, write m buf ((numeral upper b.toNat v.toNat).getD · 0) ((numeral upper b.toNat v.toNat).length + 1))
      else .error .wild := by
  have hbase : (if b < 2 ∨ 16 < b then 10 else b) = b := by
    rw [if_neg]
    rw [BitVec.lt_def, BitVec.lt_def, show (2 : BitVec 32).toNat = 2 from rfl,
      show (16 : BitVec 32).toNat = 16 from rfl]
    omega
  -- what is in `tmp` when the loop ends
  have htmp : digitLoop upper b.toNat (32 - (if v = 0 then [0x30#8] else []).length) v.toNat
      (if v = 0 then [0x30#8] else []) =
        if v.toNat < b.toNat ^ 32 then .ok (numeral upper b.toNat v.toNat).reverse else .error .wild := by
    rw [digitLoop_eq (by omega)]
    by_cases hv : v = 0
    · subst hv
      have hpos : (0 : U64).toNat < b.toNat ^ 32 := Nat.pow_pos (by omega)
      rw [if_pos hpos]
      cases upper <;> simp [numeral, digits, digitChar, lut]
    · have hne : v.toNat ≠ 0 := fun hc => hv (BitVec.eq_of_toNat_eq hc)
      simp only [if_neg hv, length_nil, Nat.sub_zero, nil_append, Nat.digits_length_le_iff hb, numeral, digits,
        if_neg hne, map_reverse, reverse_reverse]
  unfold uixUtoa
  simp only [hbase, htmp]
  by_cases hv : v.toNat < b.toNat ^ 32
  · rw [if_pos hv, if_pos hv, ok_bind, copyBack_eq, reverse_reverse, length_reverse, pure_eq_ok]
    have hnul := write_succ m buf ((numeral upper b.toNat v.toNat).getD · 0) (numeral upper b.toNat v.toNat).length
    rw [getD_eq_default _ _ le_rfl] at hnul
    rw [hnul]
  · rw [if_neg hv, if_neg hv]
    rfl

end Utoa

/-- `uix_utoa` stores at most 32 digits in `tmp`, and the canonical numeral in `buf` with its NUL, and nothing else -/
def Formats (v : U64) (m : ℕ → BitVec 8) (buf : ℕ) (base : BitVec 32) (upper : Bool) : Prop :=
  ∃ ds m', uixUtoa v m buf base upper = .ok (buf, m') ∧ ds.length ≤ 32 ∧ Canonical base.toNat v.toNat ds ∧
    StringAt m' buf (ds.map (digitChar upper)) ∧ ∀ x, x < buf ∨ buf + ds.length + 1 ≤ x → m' x = m x

/-- **When `uix_utoa` stays within `tmp`**: the number has at most 32 digits in the base. -/
theorem utoa_fits_iff (v : U64) (m : ℕ → BitVec 8) (buf : ℕ) (base : BitVec 32) (upper : Bool) (h2 : 2 ≤ base.toNat)
    (h16 : base.toNat ≤ 16) : Formats v m buf base upper ↔ v.toNat < base.toNat ^ 32 := by
  constructor
  · rintro ⟨ds, m', -, hlen, hds, -⟩
    rw [hds.eq_digits (by omega)] at hlen
    exact (length_digits_le (by omega) (by decide)).1 hlen
  · intro hv
    refine ⟨digits base.toNat v.toNat, _, (uixUtoa_eq h2 h16 v m buf upper).trans (if_pos hv), ?_, ?_, ?_,
      fun x hx => ?_⟩
    · exact (length_digits_le (by omega) (by decide)).2 hv
    · exact digits_canonical (by omega) _
    · exact stringAt_write m buf (numeral_ne_nul (by omega) h16 _)
    · rw [numeral, List.length_map]
      exact write_outside (by omega)

/-- **A store behind `tmp`**: 2^32 has 33 binary digits. -/
theorem utoa_overruns : uixUtoa 0x100000000 (fun _ => 0) 0 2 false = .error .wild ∧
    ¬ Formats 0x100000000 (fun _ => 0) 0 2 false := by
  have hrun : uixUtoa 0x100000000 (fun _ => 0) 0 2 false = .error .wild :=
    (uixUtoa_eq (by decide) (by decide) _ _ _ _).trans (if_neg (by decide))
  refine ⟨hrun, ?_⟩
  rintro ⟨ds, m', hok, -⟩
  rw [hrun] at hok
  cases hok

/-- the largest number in base 16 -/
theorem utoa_hex_fits : Formats 0xFFFFFFFFFFFFFFFF (fun _ => 0) 0 16 true :=
  (utoa_fits_iff 0xFFFFFFFFFFFFFFFF (fun _ => 0) 0 16 true (by decide) (by decide)).2 (by decide)

/-! ## `uix_itoa` -/

/-- `x + y` on `i64`; an overflow is undefined -/
def addI64 (x y : U64) : Except Stop U64 := if x.saddOverflow y then .error .wild else .ok (x + y)

/-- `-x` on `i64`; an overflow is undefined -/
def negI64 (x : U64) : Except Stop U64 := if x.negOverflow then .error .wild else .ok (-x)

/-- `uix_itoa`: the pointer returned and memory -/
def uixItoa (v : U64) (m : ℕ → BitVec 8) (buf : ℕ) (base : BitVec 32) : Except Stop (ℕ × (ℕ → BitVec 8)) :=
  if base = 10 ∧ v.slt 0 then do
    let m := Function.update m buf 0x2D
    let buf := buf + 1
    let t ← addI64 v 1
    let t ← negI64 t
    let (_, m) ← uixUtoa (t + 1) m buf base false
    pure (buf - 1, m)
  else uixUtoa v m buf base false

/-- the canonical signed decimal numeral -/
inductive SignedNumeral (v : ℤ) : List (BitVec 8) → Prop where
  | nonneg {ds : List ℕ} : 0 ≤ v → Canonical 10 v.toNat ds → SignedNumeral v (ds.map (digitChar false))
  | neg {ds : List ℕ} : v < 0 → Canonical 10 (-v).toNat ds → SignedNumeral v (0x2D :: ds.map (digitChar false))

/-- the number that a string of decimal digits with an optional minus sign denotes -/
def parse (s : List (BitVec 8)) : ℤ :=
  let number (s : List (BitVec 8)) : ℤ := value 10 (s.map fun c => c.toNat - 0x30)
  if s.head? = some 0x2D then -number s.tail else number s

/-- the string that `uix_itoa` writes -/
def signedText (v : U64) : List (BitVec 8) :=
  if v.toInt < 0 then 0x2D :: numeral false 10 (-v.toInt).toNat else numeral false 10 v.toNat

section Itoa

variable {v : U64}

theorem toNat_of_nonneg (hv : 0 ≤ v.toInt) : v.toInt.toNat = v.toNat := by
  rw [BitVec.toInt_eq_toNat_cond] at hv ⊢
  split_ifs at hv ⊢ <;> omega

/-- the negation does not overflow, and gives the absolute value -/
theorem neg_exact (hv : v.toInt < 0) : ∃ t, addI64 v 1 = .ok (v + 1) ∧ negI64 (v + 1) = .ok t ∧
    (t + 1).toNat = (-v.toInt).toNat := by
  have hlow := BitVec.le_toInt v
  have hone : (1 : U64).toInt = 1 := by decide
  have hadd : v.saddOverflow 1 = false := by
    rw [Bool.eq_false_iff]
    simp only [BitVec.saddOverflow, hone, ne_eq, Bool.or_eq_true, decide_eq_true_eq]
    omega
  have hsum : (v + 1).toInt = v.toInt + 1 := by
    rw [BitVec.toInt_add, hone, Int.bmod_eq_of_le (by omega) (by omega)]
  have hneg : (v + 1).negOverflow = false := by
    rw [Bool.eq_false_iff]
    simp only [BitVec.negOverflow, hsum, ne_eq, beq_iff_eq]
    omega
  refine ⟨-(v + 1), ?_, ?_, ?_⟩
  · rw [addI64, hadd, if_neg Bool.false_ne_true]
  · rw [negI64, hneg, if_neg Bool.false_ne_true]
  · have hnat := BitVec.toInt_eq_toNat_cond v
    have hlt := v.isLt
    have hself : -(v + 1) + 1 = -v := by ring
    rw [hself, BitVec.toNat_neg]
    split_ifs at hnat <;> omega

theorem lt_pow_32 (v : U64) : v.toNat < (10 : BitVec 32).toNat ^ 32 :=
  lt_trans v.isLt (by decide)

/-- **`uix_itoa`** in base 10. -/
theorem uixItoa_eq (v : U64) (m : ℕ → BitVec 8) (buf : ℕ) :
    uixItoa v m buf 10 = .ok (buf, write m buf ((signedText v).getD · 0) ((signedText v).length + 1)) := by
  have hslt : v.slt 0 = decide (v.toInt < 0) := by
    rw [BitVec.slt]
    rfl
  unfold uixItoa
  by_cases hv : v.toInt < 0
  · obtain ⟨t, hadd, hneg, habs⟩ := neg_exact hv
    rw [if_pos ⟨rfl, by rw [hslt]; exact decide_eq_true hv⟩]
    simp only [hadd, hneg, ok_bind, uixUtoa_eq (b := 10) (by decide) (by decide), if_pos (lt_pow_32 _), habs]
    rw [signedText, if_pos hv, pure_eq_ok, Nat.add_sub_cancel]
    congr 2
    -- the sign, and the digits behind it
    funext x
    rw [show (10 : BitVec 32).toNat = 10 from rfl, length_cons]
    generalize numeral false 10 (-v.toInt).toNat = ds
    simp only [write]
    by_cases hx : x = buf
    · subst hx
      rw [if_neg (by omega), update_self, if_pos (by omega), Nat.sub_self]
      rfl
    · rw [update_of_ne hx]
      by_cases hin : buf + 1 ≤ x ∧ x < buf + 1 + (ds.length + 1)
      · rw [if_pos hin, if_pos (by omega), show x - buf = (x - (buf + 1)) + 1 by omega, getD_cons_succ]
      · rw [if_neg hin, if_neg (by omega)]
  · rw [if_neg (by rw [hslt]; simp [hv]), uixUtoa_eq (by decide) (by decide), if_pos (lt_pow_32 _), signedText,
      if_neg hv]
    rfl

theorem signedText_numeral (v : U64) : SignedNumeral v.toInt (signedText v) := by
  rw [signedText]
  split_ifs with hv
  · exact .neg hv (digits_canonical (by decide) _)
  · have hnum := SignedNumeral.nonneg (v := v.toInt) (by omega) (digits_canonical (by decide) _)
    rw [toNat_of_nonneg (by omega)] at hnum
    exact hnum

theorem signedText_nulFree (v : U64) : 0 ∉ signedText v := by
  have hnum : ∀ n, 0 ∉ numeral false 10 n := fun n => numeral_ne_nul (by decide) (by decide) n
  rw [signedText]
  split_ifs
  · rw [mem_cons, not_or]
    exact ⟨by decide, hnum _⟩
  · exact hnum _

theorem numeral_length (n : ℕ) (hn : n < 10 ^ 20) : (numeral false 10 n).length ≤ 20 := by
  rw [numeral, length_map]
  exact (length_digits_le (by decide) (by decide)).2 hn

theorem signedText_length (v : U64) : (signedText v).length ≤ 21 := by
  have hlow := BitVec.le_toInt v
  have hlt := v.isLt
  rw [signedText]
  split_ifs
  · rw [length_cons]
    have := numeral_length (-v.toInt).toNat (by omega)
    omega
  · have := numeral_length v.toNat (by omega)
    omega

/-- digits are read back -/
theorem value_numeral (n : ℕ) : value 10 ((numeral false 10 n).map fun c => c.toNat - 0x30) = n := by
  have hback : ∀ d < 10, (digitChar false d).toNat - 0x30 = d := by decide
  have hcan := @digits_canonical 10 (by decide) n
  have hmap : (numeral false 10 n).map (fun c => c.toNat - 0x30) = digits 10 n := by
    rw [numeral, map_map]
    refine (map_congr_left fun d hd => ?_).trans (map_id _)
    exact hback d (hcan.digit d hd)
  rw [hmap, hcan.value_eq]

theorem head_numeral_ne (n : ℕ) : (numeral false 10 n).head? ≠ some 0x2D := by
  have hchar : ∀ d < 10, digitChar false d ≠ 0x2D := by decide
  intro hc
  obtain ⟨d, hd, heq⟩ := mem_map.1 (mem_of_mem_head? hc)
  exact hchar d ((digits_canonical (by decide) n).digit d hd) heq

/-- **The text is parsed back.** -/
theorem parse_signedText (v : U64) : parse (signedText v) = v.toInt := by
  rw [signedText]
  split_ifs with hv
  · simp only [parse, head?_cons, if_true, tail_cons, value_numeral]
    omega
  · have := toNat_of_nonneg (v := v) (by omega)
    simp only [parse, if_neg (head_numeral_ne _), value_numeral]
    omega

end Itoa

/-- **`uix_itoa` in base 10 is exact**, for every number. It returns `buf`, where the canonical signed numeral stands
with its NUL; both fit into 32 bytes, nothing else is written, and no operation overflows. The numeral is parsed back,
and no other number has it. -/
theorem itoa_exact (v : U64) (m : ℕ → BitVec 8) (buf : ℕ) :
    ∃ text m', uixItoa v m buf 10 = .ok (buf, m') ∧ StringAt m' buf text ∧ SignedNumeral v.toInt text ∧
      parse text = v.toInt ∧ text.length + 1 ≤ 32 ∧ (∀ x, x < buf ∨ buf + text.length + 1 ≤ x → m' x = m x) ∧
      ∀ (w : U64) (m₂ : ℕ → BitVec 8) (buf₂ : ℕ) (m₂' : ℕ → BitVec 8),
        uixItoa w m₂ buf₂ 10 = .ok (buf₂, m₂') → StringAt m₂' buf₂ text → w = v := by
  have hlen := signedText_length v
  refine ⟨signedText v, _, uixItoa_eq v m buf, stringAt_write m buf (signedText_nulFree v), signedText_numeral v,
    parse_signedText v, by omega, fun x hx => write_outside (by omega), fun w m₂ buf₂ m₂' hw hstr => ?_⟩
  rw [uixItoa_eq w m₂ buf₂, Except.ok.injEq, Prod.mk.injEq] at hw
  rw [← hw.2] at hstr
  have htext := (stringAt_write m₂ buf₂ (signedText_nulFree w)).unique hstr
  apply BitVec.eq_of_toInt_eq
  rw [← parse_signedText w, htext, parse_signedText v]

end Uix
