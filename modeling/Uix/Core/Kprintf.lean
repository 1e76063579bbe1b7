/-
`kvprintf` (`src/core/kprintf.c`). The format is read from memory character by character, and every address read is
logged. The arguments are the slots that `va_arg` takes one after the other. An `int` wraps around, as it does in the
code compiled.

- `scanWhile_reads`: the width and the length modifiers are read by one kind of loop.
- `convert_prints`, `convert_total`: what a conversion prints; no conversion stops.
- `width_honoured_iff`: a width is honoured unless the number is negative and shorter than the width (or the string has
  more characters than an `int` can count). `negative_narrow` is a field of five characters for a width of six.
- `format_end_iff`: nothing behind the format is read exactly if its last conversion is complete. `lone_percent` is a
  format that is read beyond its NUL.
-/
import Uix.Core.Numerals
import Uix.Lib.Logged

namespace Uix

namespace Kprintf

open Cstring Logged Machine Numeral List

/-! ## The printer -/

def chr (c : Char) : BitVec 8 := BitVec.ofNat 8 c.toNat

/-- what a call of `kvprintf` reads: the slots of `ap`, and the string at a pointer -/
structure Args where
  slot : ℕ → U64
  str : U64 → List (BitVec 8)

/-- `buf`, the number of slots taken from `ap`, and the characters given to the console -/
structure Printer where
  buf : ℕ → BitVec 8
  ap : ℕ
  out : List (BitVec 8)

/-- `console_putc` -/
def Printer.consolePutc (st : Printer) (c : BitVec 8) : Printer := { st with out := st.out ++ [c] }

/-- `console_write` -/
def Printer.consoleWrite (st : Printer) (s : List (BitVec 8)) : Printer := { st with out := st.out ++ s }

theorem toInt_sub_one {n : BitVec 32} (hn : 0 < n.toInt) : (n - 1).toInt = n.toInt - 1 := by
  have := @BitVec.toInt_lt 32 n
  rw [BitVec.toInt_sub, show (1 : BitVec 32).toInt = 1 from rfl, Int.bmod_eq_of_le (by omega) (by omega)]

/-- `emit_pad` -/
def emitPad (c : BitVec 8) (n : BitVec 32) (st : Printer) : Printer :=
  if 0 < n.toInt then emitPad c (n - 1) (st.consolePutc c) else st
termination_by n.toInt.toNat
decreasing_by
  have hsub := @toInt_sub_one n (by assumption)
  omega

/-- `len = (int)strlen(buf); emit_pad(c, width - len); console_write(buf);` -/
def padBuf (c : BitVec 8) (width : BitVec 32) (st : Printer) : Except Stop Printer := do
  let s ← readString st.buf 32 0
  pure ((emitPad c (width - BitVec.ofNat 32 s.length) st).consoleWrite s)

/-- `uix_utoa(v, buf, base, upper);` and the lines that print `buf` -/
def number (c : BitVec 8) (width : BitVec 32) (v : U64) (base : BitVec 32) (upper : Bool) (st : Printer) :
    Except Stop Printer := do
  let (_, buf) ← uixUtoa v st.buf 0 base upper
  padBuf c width { st with buf := buf }

/-- `"(null)"` -/
def nullText : List (BitVec 8) := "(null)".toList.map chr

/-- `switch (spec)` -/
def convert (args : Args) (spec : BitVec 8) (width : BitVec 32) (st : Printer) : Except Stop Printer :=
  let v := args.slot st.ap
  let taken := { st with ap := st.ap + 1 }
  if spec = chr 'c' then
    pure ((emitPad (chr ' ') (width - 1) taken).consolePutc (v.setWidth 8))
  else if spec = chr 's' then
    let s := if v = 0 then nullText else args.str v
    pure ((emitPad (chr ' ') (width - BitVec.ofNat 32 s.length) taken).consoleWrite s)
  else if spec = chr 'd' ∨ spec = chr 'i' then do
    let (_, buf) ← uixItoa v taken.buf 0 10
    padBuf (chr ' ') (if v.slt 0 then width - 1 else width) { taken with buf := buf }
  else if spec = chr 'u' then number (chr ' ') width v 10 false taken
  else if spec = chr 'x' then number (chr ' ') width v 16 false taken
  else if spec = chr 'X' then number (chr ' ') width v 16 true taken
  else if spec = chr 'p' then number (chr '0') 16 v 16 false (taken.consoleWrite [chr '0', chr 'x'])
  else if spec = chr '%' then pure (st.consolePutc (chr '%'))
  else pure ((st.consolePutc (chr '%')).consolePutc spec)

/-! ## The format -/

/-- `*fmt` -/
def peek (fmt : ℕ → BitVec 8) (i : ℕ) : Logged ℕ Stop (BitVec 8) := do
  note i
  pure (fmt i)

/-- `while (p(*fmt)) { ...; fmt++; }` -/
def scanWhile {α : Type} (p : BitVec 8 → Bool) (f : α → BitVec 8 → α) (fmt : ℕ → BitVec 8) :
    ℕ → ℕ → α → Logged ℕ Stop (ℕ × α)
  | 0, _, _ => lift (.error .hang)
  | fuel + 1, i, x => do
    let c ← peek fmt i
    if p c then scanWhile p f fmt fuel (i + 1) (f x c) else pure (i, x)

/-- `*fmt >= '0' && *fmt <= '9'` -/
def isDigit (c : BitVec 8) : Bool := (chr '0').sle c && c.sle (chr '9')

/-- `*fmt == 'l' || *fmt == 'h' || *fmt == 'z'` -/
def isModifier (c : BitVec 8) : Bool := c == chr 'l' || c == chr 'h' || c == chr 'z'

/-- `width * 10 + (*fmt - '0')` -/
def addDigit (width : BitVec 32) (c : BitVec 8) : BitVec 32 := width * 10 + (c.signExtend 32 - (chr '0').signExtend 32)

/-- the loop over the field width -/
def widthLoop (fmt : ℕ → BitVec 8) : ℕ → ℕ → BitVec 32 → Logged ℕ Stop (ℕ × BitVec 32) := scanWhile isDigit addDigit fmt

/-- the loop over the length modifiers -/
def modifierLoop (fmt : ℕ → BitVec 8) : ℕ → ℕ → Unit → Logged ℕ Stop (ℕ × Unit) :=
  scanWhile isModifier (fun _ _ => ()) fmt

/-- the body of the loop of `kvprintf`: the address of the last character it used -/
def body (fmt : ℕ → BitVec 8) (args : Args) (fuel i : ℕ) (st : Printer) : Logged ℕ Stop (ℕ × Printer) := do
  let c ← peek fmt i
  if c ≠ chr '%' then pure (i, st.consolePutc c) else do
    let (i, width) ← widthLoop fmt fuel (i + 1) 0
    let (i, _) ← modifierLoop fmt fuel i ()
    let spec ← peek fmt i
    let st ← lift (convert args spec width st)
    pure (i, st)

/-- `for (; *fmt; fmt++)` -/
def kvLoop (fmt : ℕ → BitVec 8) (args : Args) : ℕ → ℕ → Printer → Logged ℕ Stop Printer
  | 0, _, _ => lift (.error .hang)
  | fuel + 1, i, st => do
    let c ← peek fmt i
    if c = 0 then pure st else do
      let (i, st) ← body fmt args fuel i st
      kvLoop fmt args fuel (i + 1) st

/-- `kvprintf`: `buf` is not initialised -/
def kvprintf (fmt : ℕ → BitVec 8) (a : ℕ) (args : Args) (buf : ℕ → BitVec 8) (fuel : ℕ) : Logged ℕ Stop Printer :=
  kvLoop fmt args fuel a ⟨buf, 0, []⟩

/-! ## What a conversion prints -/

section Convert

variable {args : Args} {st : Printer} {c spec : BitVec 8} {width : BitVec 32}

/-- the text of a conversion without its padding -/
def unpadded (args : Args) (spec : BitVec 8) (v : U64) : List (BitVec 8) :=
  if spec = chr 'c' then [v.setWidth 8]
  else if spec = chr 's' then if v = 0 then nullText else args.str v
  else if spec = chr 'd' ∨ spec = chr 'i' then signedText v
  else numeral (spec == chr 'X') (if spec = chr 'u' then 10 else 16) v.toNat

/-- the conversions with a width -/
def widthConversions : List (BitVec 8) := [chr 'c', chr 's', chr 'd', chr 'i', chr 'u', chr 'x', chr 'X']

theorem emitPad_eq (c : BitVec 8) (n : BitVec 32) (st : Printer) :
    emitPad c n st = st.consoleWrite (replicate n.toInt.toNat c) := by
  induction h : n.toInt.toNat generalizing n st with
  | zero =>
    have hn : ¬ 0 < n.toInt := by omega
    rw [emitPad, if_neg hn, replicate_zero, Printer.consoleWrite, append_nil]
  | succ k ih =>
    have hn : 0 < n.toInt := by omega
    have hsub := toInt_sub_one hn
    rw [emitPad, if_pos hn, ih (n - 1) _ (by omega), replicate_succ]
    simp only [Printer.consoleWrite, Printer.consolePutc, append_assoc, singleton_append]

/-- a result: the slots taken, and the characters printed -/
def Prints (x : Except Stop Printer) (ap : ℕ) (out : List (BitVec 8)) : Prop := ∃ buf, x = .ok ⟨buf, ap, out⟩

theorem padBuf_prints {s : List (BitVec 8)} (hs : StringAt st.buf 0 s) (hlen : s.length < 32) :
    Prints (padBuf c width st) st.ap
      (st.out ++ (replicate (width - BitVec.ofNat 32 s.length).toInt.toNat c ++ s)) := by
  refine ⟨st.buf, ?_⟩
  rw [padBuf, hs.read hlen, ok_bind, pure_eq_ok, emitPad_eq]
  simp only [Printer.consoleWrite, append_assoc]

/-- a number in base 10 or 16: padding and numeral -/
theorem number_prints {base : BitVec 32} (h10 : 10 ≤ base.toNat) (h16 : base.toNat ≤ 16) (c : BitVec 8)
    (width : BitVec 32) (v : U64) (upper : Bool) (st : Printer) :
    Prints (number c width v base upper st) st.ap
      (st.out ++ (replicate (width - BitVec.ofNat 32 (numeral upper base.toNat v.toNat).length).toInt.toNat c ++
        numeral upper base.toNat v.toNat)) := by
  have hlt : v.toNat < base.toNat ^ 31 :=
    lt_of_lt_of_le v.isLt (le_trans (by decide) (Nat.pow_le_pow_left h10 31))
  have hlen : (numeral upper base.toNat v.toNat).length ≤ 31 := by
    rw [numeral, length_map]
    exact (length_digits_le (by omega) (by decide)).2 hlt
  have hfit : v.toNat < base.toNat ^ 32 := lt_of_lt_of_le hlt (Nat.pow_le_pow_right (by omega) (by decide))
  have hnul : 0 ∉ numeral upper base.toNat v.toNat := numeral_ne_nul (by omega) h16 _
  rw [number, uixUtoa_eq (by omega) h16, if_pos hfit, ok_bind]
  exact @padBuf_prints { st with buf := _ } c width _ (stringAt_write st.buf 0 hnul) (by omega)

theorem unpadded_signed (hspec : spec = chr 'd' ∨ spec = chr 'i') (v : U64) : unpadded args spec v = signedText v := by
  rcases hspec with rfl | rfl <;> rfl

/-- `%d` and `%i` -/
theorem convert_signed (hspec : spec = chr 'd' ∨ spec = chr 'i') (width : BitVec 32) (st : Printer) :
    Prints (convert args spec width st) (st.ap + 1) (st.out ++ (replicate
      ((if (args.slot st.ap).toInt < 0 then width - 1 else width) -
        BitVec.ofNat 32 (signedText (args.slot st.ap)).length).toInt.toNat (chr ' ') ++
      signedText (args.slot st.ap))) := by
  have hlen := signedText_length (args.slot st.ap)
  have hc : spec ≠ chr 'c' := by rcases hspec with rfl | rfl <;> decide
  have hs : spec ≠ chr 's' := by rcases hspec with rfl | rfl <;> decide
  have hslt : (args.slot st.ap).slt 0 = decide ((args.slot st.ap).toInt < 0) := by
    rw [BitVec.slt]
    rfl
  simp only [convert, if_neg hc, if_neg hs, if_pos hspec, uixItoa_eq, ok_bind, hslt, decide_eq_true_eq]
  exact @padBuf_prints ⟨_, st.ap + 1, st.out⟩ _ _ _ (stringAt_write st.buf 0 (signedText_nulFree _)) (by omega)

/-- **A conversion with a width**: the padding that the code counts, and the text. -/
theorem convert_prints (hspec : spec ∈ widthConversions) (width : BitVec 32) (st : Printer) :
    Prints (convert args spec width st) (st.ap + 1) (st.out ++ (replicate
      ((if (spec = chr 'd' ∨ spec = chr 'i') ∧ (args.slot st.ap).toInt < 0 then width - 1 else width) -
        BitVec.ofNat 32 (unpadded args spec (args.slot st.ap)).length).toInt.toNat (chr ' ') ++
      unpadded args spec (args.slot st.ap))) := by
  have hunsigned {base : BitVec 32} (upper : Bool) (h10 : 10 ≤ base.toNat) (h16 : base.toNat ≤ 16) :=
    number_prints h10 h16 (chr ' ') width (args.slot st.ap) upper { st with ap := st.ap + 1 }
  by_cases hsigned : spec = chr 'd' ∨ spec = chr 'i'
  · simp only [unpadded_signed hsigned, hsigned, true_and]
    exact convert_signed hsigned width st
  simp only [widthConversions, mem_cons, not_mem_nil, or_false] at hspec
  rcases hspec with rfl | rfl | hd | hi | rfl | rfl | rfl
  · refine ⟨st.buf, ?_⟩
    rw [convert, if_pos rfl, emitPad_eq, pure_eq_ok, Printer.consolePutc, Printer.consoleWrite, append_assoc]
    rfl
  · refine ⟨st.buf, ?_⟩
    simp only [convert, emitPad_eq, Printer.consoleWrite, append_assoc]
    rfl
  · exact absurd (Or.inl hd) hsigned
  · exact absurd (Or.inr hi) hsigned
  · exact @hunsigned 10 false (by decide) (by decide)
  · exact @hunsigned 16 false (by decide) (by decide)
  · exact @hunsigned 16 true (by decide) (by decide)

/-- no conversion stops -/
theorem convert_total (args : Args) (spec : BitVec 8) (width : BitVec 32) (st : Printer) :
    ∃ st', convert args spec width st = .ok st' := by
  by_cases hspec : spec ∈ widthConversions
  · obtain ⟨buf, hok⟩ := @convert_prints args spec hspec width st
    exact ⟨_, hok⟩
  · simp only [widthConversions, mem_cons, not_mem_nil, or_false, not_or] at hspec
    obtain ⟨hc, hs, hd, hi, hu, hx, hX⟩ := hspec
    have hdi : ¬ (spec = chr 'd' ∨ spec = chr 'i') := not_or.2 ⟨hd, hi⟩
    simp only [convert, if_neg hc, if_neg hs, if_neg hdi, if_neg hu, if_neg hx, if_neg hX]
    split_ifs
    · obtain ⟨buf, hok⟩ := @number_prints 16 (by decide) (by decide) (chr '0') 16 (args.slot st.ap) false
        (Printer.consoleWrite { st with ap := st.ap + 1 } [chr '0', chr 'x'])
      exact ⟨_, hok⟩
    · exact ⟨_, rfl⟩
    · exact ⟨_, rfl⟩

end Convert

/-! ## Scanning the format -/

section Scan

variable {α β : Type} {p : BitVec 8 → Bool} {f : α → BitVec 8 → α} {fmt : ℕ → BitVec 8} {s : List (BitVec 8)}
  {c : BitVec 8} {a i n : ℕ}

theorem peek_bind (fmt : ℕ → BitVec 8) (i : ℕ) (f : BitVec 8 → Logged ℕ Stop β) :
    peek fmt i >>= f = ⟨i :: (f (fmt i)).log, (f (fmt i)).res⟩ := rfl

/-- every address read meets `P`, and a result that is returned meets `Q` -/
structure Reads (P : ℕ → Prop) (Q : β → Prop) (x : Logged ℕ Stop β) : Prop where
  only : Only P x
  result : ∀ r, x.res = .ok r → Q r

theorem reads_hang {P : ℕ → Prop} {Q : β → Prop} : Reads P Q (lift (.error .hang)) :=
  ⟨only_lift _, fun _ hr => by cases hr⟩

theorem reads_pure {P : ℕ → Prop} {Q : β → Prop} {r : β} (hr : Q r) : Reads P Q (pure r) := by
  refine ⟨only_pure _, fun r' hr' => ?_⟩
  cases hr'
  exact hr

theorem reads_peek {P : ℕ → Prop} {Q : β → Prop} {f : BitVec 8 → Logged ℕ Stop β} (hi : P i)
    (hf : Reads P Q (f (fmt i))) : Reads P Q (peek fmt i >>= f) :=
  ⟨forall_mem_cons.2 ⟨hi, hf.only⟩, hf.result⟩

theorem Reads.bind {P : ℕ → Prop} {Q : α → Prop} {R : β → Prop} {x : Logged ℕ Stop α} {f : α → Logged ℕ Stop β}
    (hx : Reads P Q x) (hf : ∀ r, Q r → Reads P R (f r)) : Reads P R (x >>= f) := by
  refine ⟨hx.only.bind fun r hr => (hf r (hx.result r hr)).only, fun y hy => ?_⟩
  rw [res_bind] at hy
  obtain ⟨r, hr, hy⟩ := bind_ok.1 hy
  exact (hf r (hx.result r hr)).result y hy

/-- what is left of the format at an address: these characters, and the NUL at `n` -/
structure Left (fmt : ℕ → BitVec 8) (n a : ℕ) (s : List (BitVec 8)) : Prop where
  string : StringAt fmt a s
  ends : a + s.length = n

theorem Left.le (h : Left fmt n a s) : a ≤ n := Nat.le_of_add_right_le h.ends.le

theorem Left.head (h : Left fmt n a (c :: s)) : fmt a = c := h.string.bytes 0 (Nat.zero_le _)

theorem Left.tail (h : Left fmt n a (c :: s)) : Left fmt n (a + 1) s := by
  refine ⟨h.string.tail, ?_⟩
  rw [← h.ends, length_cons]
  omega

/-- **A loop over the format** stops at the first character that does not pass, and reads no character behind it. -/
theorem scanWhile_reads (h0 : p 0 = false) (h : Left fmt n a s) (fuel : ℕ) (x : α) :
    Reads (· ≤ n) (fun r : ℕ × α => Left fmt n r.1 (s.dropWhile p) ∧ r.2 = (s.takeWhile p).foldl f x)
      (scanWhile p f fmt fuel a x) := by
  induction fuel generalizing a s x with
  | zero => exact reads_hang
  | succ fuel ih =>
    refine reads_peek h.le ?_
    cases s with
    | nil =>
      have hnul : fmt a = 0 := h.string.nul
      rw [hnul, h0, if_neg Bool.false_ne_true]
      exact reads_pure ⟨h, rfl⟩
    | cons c s =>
      rw [h.head]
      cases hp : p c with
      | true =>
        rw [if_pos rfl, dropWhile_cons_of_pos hp, takeWhile_cons_of_pos hp, foldl_cons]
        exact ih h.tail _
      | false =>
        have hnp : ¬ p c = true := by rw [hp]; exact Bool.false_ne_true
        rw [if_neg Bool.false_ne_true, dropWhile_cons_of_neg hnp, takeWhile_cons_of_neg hnp]
        exact reads_pure ⟨h, rfl⟩

/-- enough rounds -/
theorem scanWhile_total (h0 : p 0 = false) (h : StringAt fmt a s) {fuel : ℕ} (hfuel : s.length < fuel) (x : α) :
    ∃ r, (scanWhile p f fmt fuel a x).res = .ok r := by
  induction fuel generalizing a s x with
  | zero => exact absurd hfuel (Nat.not_lt_zero _)
  | succ fuel ih =>
    rw [scanWhile, peek_bind]
    cases s with
    | nil =>
      have hnul : fmt a = 0 := h.nul
      simp only [hnul, h0, if_neg Bool.false_ne_true]
      exact ⟨_, rfl⟩
    | cons c s =>
      have hc : fmt a = c := h.bytes 0 (Nat.zero_le _)
      simp only [hc]
      cases hp : p c with
      | true => exact ih h.tail (Nat.lt_of_succ_lt_succ hfuel) _
      | false => exact ⟨_, rfl⟩

end Scan

/-! ## The body of the loop -/

section Body

variable {fmt : ℕ → BitVec 8} {args : Args} {s : List (BitVec 8)} {c : BitVec 8} {a n fuel : ℕ} {st : Printer}

/-- the format from the conversion character on, for what stands behind a `%` -/
def afterPercent (s : List (BitVec 8)) : List (BitVec 8) := (s.dropWhile isDigit).dropWhile isModifier

/-- the width that the digits behind a `%` give -/
def widthOf (s : List (BitVec 8)) : BitVec 32 := (s.takeWhile isDigit).foldl addDigit 0

/-- the conversion at `i`, for what stands behind a `%` -/
def Converted (fmt : ℕ → BitVec 8) (args : Args) (n : ℕ) (s : List (BitVec 8)) (st : Printer)
    (r : ℕ × Printer) : Prop :=
  Left fmt n r.1 (afterPercent s) ∧ convert args ((afterPercent s).headD 0) (widthOf s) st = .ok r.2

/-- what the body does: a character is printed, or a conversion is made -/
def Used (fmt : ℕ → BitVec 8) (args : Args) (n : ℕ) (c : BitVec 8) (s : List (BitVec 8)) (st : Printer)
    (r : ℕ × Printer) : Prop :=
  if c ≠ chr '%' then Left fmt n r.1 (c :: s) ∧ r.2 = st.consolePutc c else Converted fmt args n s st r

theorem Left.headD (h : Left fmt n a s) : fmt a = s.headD 0 := by
  cases s with
  | nil => exact h.string.nul
  | cons c s => exact h.head

/-- **The body** reads nothing behind the NUL. -/
theorem body_reads (h : Left fmt n a (c :: s)) (fuel : ℕ) (st : Printer) :
    Reads (· ≤ n) (Used fmt args n c s st) (body fmt args fuel a st) := by
  refine reads_peek h.le ?_
  rw [h.head]
  by_cases hp : c ≠ chr '%'
  · rw [if_pos hp]
    refine reads_pure ?_
    rw [Used, if_pos hp]
    exact ⟨h, rfl⟩
  · rw [if_neg hp]
    refine (scanWhile_reads (by decide) h.tail fuel _).bind ?_
    rintro ⟨i, width⟩ ⟨hi, hwidth⟩
    refine (scanWhile_reads (by decide) hi fuel _).bind ?_
    rintro ⟨j, u⟩ ⟨hj, -⟩
    refine reads_peek hj.le ?_
    obtain ⟨st', hst'⟩ := convert_total args (fmt j) width st
    rw [hst']
    refine reads_pure ?_
    rw [Used, if_neg hp]
    refine ⟨hj, ?_⟩
    rw [hj.headD] at hst'
    rw [← hst', widthOf, ← hwidth]
    rfl

/-- enough rounds -/
theorem body_total (h : Left fmt n a (c :: s)) (hfuel : s.length < fuel) (st : Printer) :
    ∃ r, (body fmt args fuel a st).res = .ok r := by
  rw [body, peek_bind, h.head]
  by_cases hp : c ≠ chr '%'
  · rw [if_pos hp]
    exact ⟨_, rfl⟩
  · rw [if_neg hp]
    have hdigit : isDigit 0 = false := by decide
    have hmodifier : isModifier 0 = false := by decide
    obtain ⟨⟨i, width⟩, hwidth⟩ := @scanWhile_total _ _ addDigit _ _ _ hdigit h.tail.string _ hfuel 0
    obtain ⟨hi, -⟩ := (scanWhile_reads hdigit h.tail fuel 0).result _ hwidth
    have hlen : (s.dropWhile isDigit).length < fuel := lt_of_le_of_lt (dropWhile_suffix _).length_le hfuel
    obtain ⟨⟨j, u⟩, hmod⟩ := @scanWhile_total _ _ (fun _ _ => ()) _ _ _ hmodifier hi.string _ hlen ()
    obtain ⟨st', hst'⟩ := convert_total args (fmt j) width st
    refine ⟨(j, st'), ?_⟩
    simp only [res_bind, widthLoop, modifierLoop, hwidth, hmod, ok_bind, peek_bind, lift_res, hst', pure_res]

end Body

/-! ## Field widths -/

section Width

variable {fmt : ℕ → BitVec 8} {args : Args} {spec : BitVec 8} {ds rest : List (BitVec 8)} {a fuel w : ℕ} {st : Printer}

/-- the number that digits give -/
def decimal (ds : List (BitVec 8)) : ℕ := value 10 (ds.map fun c => c.toNat - 0x30)

/-- the conversion at `a` prints its text and enough spaces before it for `w` characters -/
def Honours (fmt : ℕ → BitVec 8) (args : Args) (fuel a : ℕ) (st : Printer) (spec : BitVec 8) (w : ℕ) : Prop :=
  ∃ i p k, (body fmt args fuel a st).res = .ok (i, p) ∧
    p.out = st.out ++ (List.replicate k (chr ' ') ++ unpadded args spec (args.slot st.ap)) ∧
    k + (unpadded args spec (args.slot st.ap)).length = max w (unpadded args spec (args.slot st.ap)).length

/-- a negative number with a text shorter than the width, or a string too long to be counted in an `int` -/
def Miscounts (args : Args) (spec : BitVec 8) (v : U64) (w : ℕ) : Prop :=
  ((spec = chr 'd' ∨ spec = chr 'i') ∧ v.toInt < 0 ∧ (unpadded args spec v).length < w) ∨
    (spec = chr 's' ∧ 2 ^ 31 ≤ (unpadded args spec v).length ∧
      0 < (BitVec.ofNat 32 w - BitVec.ofNat 32 (unpadded args spec v).length).toInt)

/-- the digits, read by the loop -/
theorem foldl_width (hds : ∀ c ∈ ds, isDigit c) (acc : ℕ) :
    ds.foldl addDigit (BitVec.ofNat 32 acc) =
      BitVec.ofNat 32 ((ds.map fun c => c.toNat - 0x30).foldl (fun v d => v * 10 + d) acc) := by
  have hdigit : ∀ c : BitVec 8, isDigit c →
      c.signExtend 32 - (chr '0').signExtend 32 = BitVec.ofNat 32 (c.toNat - 0x30) := by decide
  induction ds generalizing acc with
  | nil => rfl
  | cons c ds ih =>
    rw [foldl_cons, map_cons, foldl_cons, addDigit, hdigit c (hds c mem_cons_self),
      ← ih (fun c hc => hds c (mem_cons_of_mem _ hc)), BitVec.ofNat_add, BitVec.ofNat_mul]
    rfl

/-- what stands behind the `%` of a conversion with a width -/
theorem width_scanned (hspec : spec ∈ widthConversions) (hds : ∀ c ∈ ds, isDigit c) :
    afterPercent (ds ++ spec :: rest) = spec :: rest ∧ widthOf (ds ++ spec :: rest) = BitVec.ofNat 32 (decimal ds) := by
  have hplain : ∀ spec ∈ widthConversions, isDigit spec = false ∧ isModifier spec = false := by decide
  obtain ⟨hd, hm⟩ := hplain spec hspec
  have hdrop : (ds ++ spec :: rest).dropWhile isDigit = spec :: rest := by
    rw [dropWhile_append_of_pos hds, dropWhile_cons_of_neg (by rw [hd]; exact Bool.false_ne_true)]
  have htake : (ds ++ spec :: rest).takeWhile isDigit = ds := by
    rw [takeWhile_append_of_pos hds, takeWhile_cons_of_neg (by rw [hd]; exact Bool.false_ne_true),
      append_nil]
  refine ⟨?_, ?_⟩
  · rw [afterPercent, hdrop, dropWhile_cons_of_neg (by rw [hm]; exact Bool.false_ne_true)]
  · rw [widthOf, htake]
    exact foldl_width hds 0

/-- the padding that the code counts -/
def padding (args : Args) (spec : BitVec 8) (v : U64) (w : ℕ) : ℕ :=
  ((if (spec = chr 'd' ∨ spec = chr 'i') ∧ v.toInt < 0 then BitVec.ofNat 32 w - 1 else BitVec.ofNat 32 w) -
    BitVec.ofNat 32 (unpadded args spec v).length).toInt.toNat

/-- **A conversion with a width**, in a format. -/
theorem body_width (hspec : spec ∈ widthConversions) (hds : ∀ c ∈ ds, isDigit c)
    (hfmt : StringAt fmt a (chr '%' :: (ds ++ spec :: rest))) (hfuel : (ds ++ spec :: rest).length < fuel)
    (st : Printer) : ∃ i p, (body fmt args fuel a st).res = .ok (i, p) ∧ p.out = st.out ++
      (replicate (padding args spec (args.slot st.ap) (decimal ds)) (chr ' ') ++
        unpadded args spec (args.slot st.ap)) := by
  obtain ⟨hrest, hwidth⟩ := @width_scanned spec ds rest hspec hds
  obtain ⟨⟨i, p⟩, hr⟩ := @body_total fmt args _ _ a _ fuel ⟨hfmt, rfl⟩ hfuel st
  have hused := (@body_reads fmt args _ _ a _ ⟨hfmt, rfl⟩ fuel st).result _ hr
  rw [Used, if_neg (by simp), Converted, hrest, hwidth, headD_cons] at hused
  obtain ⟨buf, hconv⟩ := @convert_prints args spec hspec (BitVec.ofNat 32 (decimal ds)) st
  rw [hused.2, Except.ok.injEq] at hconv
  exact ⟨i, p, hr, congrArg Printer.out hconv⟩

theorem toInt_ofNat {k : ℕ} (hk : k < 2 ^ 31) : (BitVec.ofNat 32 k).toInt = k := by
  rw [BitVec.toInt_eq_toNat_of_lt] <;> rw [BitVec.toNat_ofNat, Nat.mod_eq_of_lt (by omega)]
  omega

theorem toInt_diff {w k : ℕ} (hw : w < 2 ^ 31) (hk : k < 2 ^ 31) :
    (BitVec.ofNat 32 w - BitVec.ofNat 32 k).toInt = (w : ℤ) - k := by
  rw [BitVec.toInt_sub, toInt_ofNat hw, toInt_ofNat hk, Int.bmod_eq_of_le (by omega) (by omega)]

/-- all texts but strings are short -/
theorem unpadded_length (args : Args) (hs : spec ≠ chr 's') (v : U64) :
    (unpadded args spec v).length ≤ 21 := by
  have hnumber {upper : Bool} {base : ℕ} (h10 : 10 ≤ base) : (numeral upper base v.toNat).length ≤ 21 := by
    have hpow : 2 ^ 64 ≤ base ^ 21 := le_trans (by decide) (Nat.pow_le_pow_left h10 21)
    rw [numeral, length_map]
    exact (length_digits_le (by omega) (by decide)).2 (lt_of_lt_of_le v.isLt hpow)
  rw [unpadded]
  split_ifs with hc hsigned hu
  · exact Nat.le_of_ble_eq_true rfl
  · exact signedText_length v
  · exact hnumber le_rfl
  · exact hnumber (by decide)

/-- the padding counted is the padding needed -/
theorem padding_iff (args : Args) (spec : BitVec 8) (hw : w < 2 ^ 31) (v : U64) :
    padding args spec v w + (unpadded args spec v).length = max w (unpadded args spec v).length ↔
      ¬ Miscounts args spec v w := by
  rw [padding, Miscounts]
  by_cases hs : spec = chr 's'
  · -- only a string can be too long
    have hnot : ¬ (spec = chr 'd' ∨ spec = chr 'i') := by rw [hs]; decide
    rw [if_neg (fun hc => hnot hc.1), or_iff_right (fun hc => hnot hc.1), and_iff_right hs]
    by_cases hlen : (unpadded args spec v).length < 2 ^ 31
    · rw [toInt_diff hw hlen]
      omega
    · omega
  · have hlen := unpadded_length args hs v
    by_cases hneg : (spec = chr 'd' ∨ spec = chr 'i') ∧ v.toInt < 0
    · have hone : BitVec.ofNat 32 w - 1 - BitVec.ofNat 32 (unpadded args spec v).length =
          BitVec.ofNat 32 w - BitVec.ofNat 32 ((unpadded args spec v).length + 1) := by
        rw [BitVec.ofNat_add, sub_sub, add_comm]
        rfl
      have hdiff := @toInt_diff w ((unpadded args spec v).length + 1) hw (by omega)
      rw [if_pos hneg, hone, hdiff]
      simp only [hneg.1, hneg.2, hs, true_and, false_and, or_false]
      omega
    · have hdiff := @toInt_diff w (unpadded args spec v).length hw (by omega)
      rw [if_neg hneg, hdiff]
      simp only [hs, false_and, or_false, ← and_assoc, hneg, not_false_eq_true, iff_true]
      omega

/-- **When a width is honoured.** -/
theorem width_honoured_iff (hspec : spec ∈ widthConversions) (hds : ∀ c ∈ ds, isDigit c) (hw : decimal ds < 2 ^ 31)
    (hfmt : StringAt fmt a (chr '%' :: (ds ++ spec :: rest))) (hfuel : (ds ++ spec :: rest).length < fuel)
    (args : Args) (st : Printer) :
    Honours fmt args fuel a st spec (decimal ds) ↔ ¬ Miscounts args spec (args.slot st.ap) (decimal ds) := by
  obtain ⟨i, p, hr, hout⟩ := @body_width fmt args spec ds rest a fuel hspec hds hfmt hfuel st
  rw [← padding_iff args spec hw]
  constructor
  · rintro ⟨i', p', k, hr', hout', hk⟩
    rw [hr, Except.ok.injEq, Prod.mk.injEq] at hr'
    rw [← hr'.2, hout] at hout'
    have hlen := congrArg List.length hout'
    simp only [List.length_append, List.length_replicate] at hlen
    omega
  · intro hk
    exact ⟨i, p, _, hr, hout, hk⟩

/-- "%6d" -/
def sixWide : ℕ → BitVec 8 := fun i => [chr '%', chr '6', chr 'd'].getD i 0

/-- the argument is −5 -/
def minusFive : Args := ⟨fun _ => -5, fun _ => []⟩

theorem stringAt_list {l : List (BitVec 8)} (hl : 0 ∉ l) : StringAt (fun i => l.getD i 0) 0 l :=
  ⟨fun i _ => by rw [Nat.zero_add], hl⟩

/-- **A negative number** has a field of five characters for a width of six. -/
theorem negative_narrow : (∃ i p, (body sixWide minusFive 3 0 ⟨fun _ => 0, 0, []⟩).res = .ok (i, p) ∧
    p.out = [chr ' ', chr ' ', chr ' ', chr '-', chr '5']) ∧
      ¬ Honours sixWide minusFive 3 0 ⟨fun _ => 0, 0, []⟩ (chr 'd') 6 := by
  have htext : unpadded minusFive (chr 'd') (-5) = [chr '-', chr '5'] := by decide
  have hpad : padding minusFive (chr 'd') (-5) 6 = 3 := by decide
  obtain ⟨i, p, hr, hout⟩ := @body_width sixWide minusFive (chr 'd') [chr '6'] [] 0 3 (by decide) (by decide)
    (stringAt_list (by decide)) (by decide) ⟨fun _ => 0, 0, []⟩
  have hsix : decimal [chr '6'] = 6 := by decide
  have hfive : p.out = [chr ' ', chr ' ', chr ' ', chr '-', chr '5'] := by
    rw [hout, show minusFive.slot 0 = -5 from rfl, hsix, hpad, htext]
    rfl
  refine ⟨⟨i, p, hr, hfive⟩, ?_⟩
  rintro ⟨i', p', k, hr', hout', hk⟩
  rw [hr, Except.ok.injEq, Prod.mk.injEq] at hr'
  rw [← hr'.2, hfive] at hout'
  have hlen := congrArg List.length hout'
  rw [show minusFive.slot 0 = -5 from rfl, htext] at hlen hk
  simp only [List.length_append, List.length_replicate, List.length_cons, List.length_nil] at hlen hk
  omega

/-- a number that is not negative -/
theorem positive_wide : Honours sixWide ⟨fun _ => 5, fun _ => []⟩ 3 0 ⟨fun _ => 0, 0, []⟩ (chr 'd') 6 :=
  (@width_honoured_iff sixWide (chr 'd') [chr '6'] [] 0 3 (by decide) (by decide) (by decide)
    (stringAt_list (by decide)) (by decide) _ _).2 (by
      rintro (⟨-, hneg, -⟩ | ⟨hs, -⟩)
      · exact absurd hneg (by decide)
      · exact absurd hs (by decide))

end Width

/-! ## The end of the format -/

section End

/-- a format whose conversions all have their conversion character -/
inductive Complete : List (BitVec 8) → Prop where
  | nil : Complete []
  | char {c : BitVec 8} {s : List (BitVec 8)} : c ≠ chr '%' → Complete s → Complete (c :: s)
  | conversion {c : BitVec 8} {s rest : List (BitVec 8)} :
    afterPercent s = c :: rest → Complete rest → Complete (chr '%' :: s)

variable {fmt : ℕ → BitVec 8} {args : Args} {s : List (BitVec 8)} {c : BitVec 8} {a n fuel : ℕ} {st : Printer}

/-- `kvprintf` returns, and reads nothing behind the NUL of the format -/
def StopsAtEnd (fmt : ℕ → BitVec 8) (a n : ℕ) (args : Args) (buf : ℕ → BitVec 8) : Prop :=
  (∃ fuel st, (kvprintf fmt a args buf fuel).res = .ok st) ∧
    ∀ fuel, Only (· ≤ n) (kvprintf fmt a args buf fuel)

theorem length_afterPercent {rest : List (BitVec 8)} (h : afterPercent s = c :: rest) : rest.length ≤ s.length := by
  have hsuf : afterPercent s <:+ s := (dropWhile_suffix _).trans (dropWhile_suffix _)
  have hlen := hsuf.length_le
  rw [h, length_cons] at hlen
  omega

/-- the rest of a complete format after a round of the loop -/
theorem Used.next {r : ℕ × Printer} (h : Used fmt args n c s st r) (hs : Complete (c :: s)) :
    ∃ rest, Complete rest ∧ Left fmt n (r.1 + 1) rest ∧ rest.length ≤ s.length := by
  cases hs with
  | char hc hs =>
    rw [Used, if_pos hc] at h
    exact ⟨s, hs, h.1.tail, le_rfl⟩
  | conversion hrest hs =>
    rw [Used, if_neg (by simp), Converted, hrest] at h
    exact ⟨_, hs, h.1.tail, length_afterPercent hrest⟩

/-- **A complete format** is not read beyond its NUL. -/
theorem kvLoop_complete (hs : Complete s) (h : Left fmt n a s) (fuel : ℕ) (st : Printer) :
    Only (· ≤ n) (kvLoop fmt args fuel a st) ∧
      (s.length < fuel → ∃ st', (kvLoop fmt args fuel a st).res = .ok st') := by
  induction fuel generalizing a s st with
  | zero => exact ⟨only_lift _, fun hc => absurd hc (Nat.not_lt_zero _)⟩
  | succ fuel ih =>
    rw [kvLoop, peek_bind]
    cases s with
    | nil =>
      have hnul : fmt a = 0 := h.string.nul
      rw [if_pos hnul]
      exact ⟨forall_mem_singleton.2 h.le, fun _ => ⟨st, rfl⟩⟩
    | cons c s =>
      have hne : fmt a ≠ 0 := h.string.char_ne (Nat.succ_pos _)
      have hbody := @body_reads fmt args s c a n h fuel st
      rw [if_neg hne]
      refine ⟨forall_mem_cons.2 ⟨h.le, hbody.only.bind fun r hr => ?_⟩, fun hfuel => ?_⟩
      · obtain ⟨rest, hrest, hleft, -⟩ := (hbody.result r hr).next hs
        exact (ih hrest hleft r.2).1
      · rw [length_cons] at hfuel
        obtain ⟨r, hr⟩ := @body_total fmt args s c a n fuel h (by omega) st
        obtain ⟨rest, hrest, hleft, hlen⟩ := (hbody.result r hr).next hs
        obtain ⟨st', hst'⟩ := (ih hrest hleft r.2).2 (by omega)
        refine ⟨st', ?_⟩
        simp only [res_bind, hr, ok_bind, hst']

/-- the rest of an incomplete format after a round: the last conversion is cut short, or stands in the rest -/
theorem Used.cut {r : ℕ × Printer} (h : Used fmt args n c s st r) (hs : ¬ Complete (c :: s)) :
    r.1 = n ∨ ∃ rest, ¬ Complete rest ∧ Left fmt n (r.1 + 1) rest ∧ rest.length ≤ s.length := by
  by_cases hc : c ≠ chr '%'
  · rw [Used, if_pos hc] at h
    exact .inr ⟨s, fun hcs => hs (.char hc hcs), h.1.tail, le_rfl⟩
  · obtain rfl := not_not.1 hc
    rw [Used, if_neg hc, Converted] at h
    cases hrest : afterPercent s with
    | nil =>
      rw [hrest] at h
      exact .inl h.1.ends
    | cons d rest =>
      rw [hrest] at h
      exact .inr ⟨rest, fun hcs => hs (.conversion hrest hcs), h.1.tail, length_afterPercent hrest⟩

/-- **An incomplete format** is read behind its NUL. -/
theorem kvLoop_cut (hs : ¬ Complete s) (h : Left fmt n a s) (hfuel : s.length + 1 < fuel) (st : Printer) :
    n + 1 ∈ (kvLoop fmt args fuel a st).log := by
  induction fuel generalizing a s st with
  | zero => exact absurd hfuel (Nat.not_lt_zero _)
  | succ fuel ih =>
    cases s with
    | nil => exact absurd .nil hs
    | cons c s =>
      rw [length_cons] at hfuel
      have hne : fmt a ≠ 0 := h.string.char_ne (Nat.succ_pos _)
      obtain ⟨⟨i, st'⟩, hr⟩ := @body_total fmt args s c a n fuel h (by omega) st
      rw [kvLoop, peek_bind, if_neg hne, bind_eq_ok hr]
      refine mem_cons_of_mem _ (mem_append_right _ ?_)
      rcases ((@body_reads fmt args s c a n h fuel st).result _ hr).cut hs with hend | ⟨rest, hrest, hleft, hlen⟩
      · -- `fmt++` steps over the NUL, and the loop reads on
        obtain ⟨fuel, rfl⟩ : ∃ k, fuel = k + 1 := ⟨fuel - 1, by omega⟩
        simp only at hend
        subst hend
        exact mem_cons_self
      · exact ih hrest hleft (by omega) st'

/-- **When `kvprintf` stops at the end of the format.** -/
theorem format_end_iff (h : StringAt fmt a s) (args : Args) (buf : ℕ → BitVec 8) :
    StopsAtEnd fmt a (a + s.length) args buf ↔ Complete s := by
  constructor
  · rintro ⟨-, honly⟩
    by_contra hs
    have hread := @kvLoop_cut fmt args s a _ (s.length + 2) hs ⟨h, rfl⟩ (by omega) ⟨buf, 0, []⟩
    have hle := honly (s.length + 2) _ hread
    omega
  · intro hs
    have hrun := @kvLoop_complete fmt args s a _ hs ⟨h, rfl⟩
    refine ⟨⟨s.length + 1, ?_⟩, fun fuel => (hrun fuel _).1⟩
    exact (hrun (s.length + 1) _).2 (by omega)

/-- **A lone `%`**: the character behind the NUL is read. -/
theorem lone_percent : 2 ∈ (kvprintf (fun i => [chr '%'].getD i 0) 0 minusFive (fun _ => 0) 3).log ∧
    ¬ StopsAtEnd (fun i => [chr '%'].getD i 0) 0 1 minusFive (fun _ => 0) := by
  have hcut : ¬ Complete [chr '%'] := by
    intro hc
    cases hc with
    | char hne _ => exact hne rfl
    | conversion hrest _ => cases hrest
  have hread := @kvLoop_cut _ minusFive _ 0 1 3 hcut ⟨stringAt_list (by decide), rfl⟩ (by decide) ⟨fun _ => 0, 0, []⟩
  refine ⟨hread, fun hstop => ?_⟩
  exact absurd (hstop.2 3 2 hread) (by decide)

/-- "%6d" is complete -/
theorem six_wide_stops : StopsAtEnd sixWide 0 3 minusFive (fun _ => 0) :=
  (format_end_iff (stringAt_list (l := [chr '%', chr '6', chr 'd']) (by decide)) minusFive (fun _ => 0)).2
    (@Complete.conversion (chr 'd') _ [] rfl .nil)

end End

end Kprintf

end Uix
