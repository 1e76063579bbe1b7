/-
The keyboard driver (`src/drivers/keyboard.c`). `keyboard_irq` puts the characters of key presses in a ring of 256, from
which `keyboard_read` takes them; an interrupt may come between any two rounds of its loop. The indices are `u32` and
stay below 256.

`Session` is the driver with one call of `keyboard_read` at a time, and with two records: the characters put in the ring
and the results of the calls.

- `keyboardIrq_spec`, `iterate_ring`: an interrupt is a push unless the ring is full, a round of the loop is a pop.
- `keyboardRead_eq`: a call without interrupts.
- `step_inv`, `run_inv`: the characters taken and those in the ring are the ones accepted.
- `keyboard_fifo`: what is read is what was accepted first, in order, and a key press is lost only if 255 are unread.
-/
import Uix.Lib.Ring

namespace Uix

open List

/-- the static variables of `keyboard.c` -/
structure Keyboard where
  kbuf : ℕ → BitVec 8
  kbufHead : ℕ
  kbufTail : ℕ

namespace Keyboard

/-- `KBUF_SIZE` -/
def kbufSize : ℕ := 256

/-- `map`, without the zeros at its end -/
def map : List (BitVec 8) :=
  [0, 27, 0x31, 0x32, 0x33, 0x34, 0x35, 0x36, 0x37, 0x38, 0x39, 0x30, 0x2D, 0x3D, 0x08,
   0x09, 0x71, 0x77, 0x65, 0x72, 0x74, 0x79, 0x75, 0x69, 0x6F, 0x70, 0x5B, 0x5D, 0x0A,
   0, 0x61, 0x73, 0x64, 0x66, 0x67, 0x68, 0x6A, 0x6B, 0x6C, 0x3B, 0x27, 0x60,
   0, 0x5C, 0x7A, 0x78, 0x63, 0x76, 0x62, 0x6E, 0x6D, 0x2C, 0x2E, 0x2F,
   0, 0x2A, 0, 0x20, 0]

/-- `sizeof(map)` -/
def mapSize : ℕ := 128

/-- `keyboard_init`, after the flush -/
def keyboardInit (k : Keyboard) : Keyboard := { k with kbufHead := 0, kbufTail := 0 }

/-- the character of a key press, if the key has one -/
def keyChar (sc : BitVec 8) : Option (BitVec 8) :=
  if sc &&& 0x80 ≠ 0 then none else
  if mapSize ≤ sc.toNat then none else
  if map.getD sc.toNat 0 = 0 then none else some (map.getD sc.toNat 0)

/-- the slot after the next one is not in use -/
def hasRoom (k : Keyboard) : Prop := (k.kbufHead + 1) % kbufSize ≠ k.kbufTail

instance (k : Keyboard) : Decidable k.hasRoom := inferInstanceAs (Decidable (_ ≠ _))

/-- `keyboard_irq`, when the port has `sc` -/
def keyboardIrq (k : Keyboard) (sc : BitVec 8) : Keyboard :=
  match keyChar sc with
  | none => k
  | some c =>
    if k.hasRoom then
      { k with kbuf := Function.update k.kbuf k.kbufHead c, kbufHead := (k.kbufHead + 1) % kbufSize }
    else k

/-- a call of `keyboard_read`: `len`, and the first `n` characters of `buf` -/
structure Call where
  len : BitVec 32
  buf : List (BitVec 8)

/-- a round of the loop of `keyboard_read`; `none` when it ends -/
def iterate (k : Keyboard) (c : Call) : Option (Keyboard × Call) :=
  if c.buf.length < c.len.toNat ∧ k.kbufTail ≠ k.kbufHead then
    some ({ k with kbufTail := (k.kbufTail + 1) % kbufSize }, { c with buf := c.buf ++ [k.kbuf k.kbufTail] })
  else none

/-- the loop of `keyboard_read`, with a bound on its rounds -/
def readLoop : ℕ → Keyboard → Call → Keyboard × Call
  | 0, k, c => (k, c)
  | n + 1, k, c =>
    match k.iterate c with
    | some (k, c) => readLoop n k c
    | none => (k, c)

/-- `keyboard_read` without an interrupt in between: what it stores in `buf`, of which it returns the length -/
def keyboardRead (k : Keyboard) (len : BitVec 32) : List (BitVec 8) × Keyboard :=
  let (k, c) := readLoop (len.toNat + 1) k ⟨len, []⟩
  (c.buf, k)

/-! ## The ring -/

def ring (k : Keyboard) : Ring (BitVec 8) := ⟨k.kbuf, k.kbufHead, k.kbufTail⟩

/-- the characters that were not read yet -/
def unread (k : Keyboard) : List (BitVec 8) := k.ring.content kbufSize

section Ring

variable {k k' : Keyboard} {sc c : BitVec 8} {call call' : Call}

/-- **An interrupt**: a key press is put in the ring if there is room. -/
theorem keyboardIrq_spec (h : k.ring.Ok kbufSize) (sc : BitVec 8) : (k.keyboardIrq sc).ring.Ok kbufSize ∧
    (k.keyboardIrq sc).unread = k.unread ++ if k.hasRoom then (keyChar sc).toList else [] := by
  unfold keyboardIrq
  cases keyChar sc with
  | none => simp [h]
  | some c =>
    dsimp only
    split_ifs with hroom
    · exact ⟨Ring.push_ok h c, Ring.content_push h hroom⟩
    · exact ⟨h, (append_nil _).symm⟩

/-- a full ring is not written to -/
theorem hasRoom_iff (h : k.ring.Ok kbufSize) : k.hasRoom ↔ k.unread.length ≠ 255 := by
  rw [unread, Ring.content_length]
  exact not_congr (Ring.used_eq_full h).symm

/-- **A round of the loop** takes the oldest character. -/
theorem iterate_ring (h : k.ring.Ok kbufSize) (hit : k.iterate call = some (k', call')) :
    k'.ring.Ok kbufSize ∧ call'.buf ++ k'.unread = call.buf ++ k.unread := by
  unfold iterate at hit
  split_ifs at hit with hmore
  obtain ⟨rfl, rfl⟩ := Prod.mk.inj (Option.some.inj hit)
  refine ⟨Ring.pop_ok h, ?_⟩
  have hpop := Ring.content_pop h hmore.2
  change (call.buf ++ [k.kbuf k.kbufTail]) ++ (k.ring.pop kbufSize).content kbufSize =
    call.buf ++ k.ring.content kbufSize
  rw [hpop, append_assoc]
  rfl

theorem iterate_none (h : k.ring.Ok kbufSize) (hit : k.iterate call = none) :
    k.unread.take (call.len.toNat - call.buf.length) = [] := by
  unfold iterate at hit
  split_ifs at hit with hmore
  rw [not_and_or, Nat.not_lt, not_not] at hmore
  rcases hmore with hlen | hempty
  · rw [Nat.sub_eq_zero_of_le hlen, take_zero]
  · have hnil : k.unread = [] := by
      apply eq_nil_of_length_eq_zero
      rw [unread, Ring.content_length]
      exact (Ring.used_eq_zero h).2 hempty
    rw [hnil, take_nil]

/-- the loop ends within its bound -/
theorem readLoop_spec {n : ℕ} (h : k.ring.Ok kbufSize) (hn : call.len.toNat - call.buf.length < n) :
    (readLoop n k call).1.ring.Ok kbufSize ∧
      (readLoop n k call).2.buf = call.buf ++ k.unread.take (call.len.toNat - call.buf.length) ∧
      (readLoop n k call).2.buf ++ (readLoop n k call).1.unread = call.buf ++ k.unread := by
  induction n generalizing k call with
  | zero => exact absurd hn (Nat.not_lt_zero _)
  | succ n ih =>
    unfold readLoop
    cases hit : k.iterate call with
    | none => exact ⟨h, by rw [iterate_none h hit, append_nil], rfl⟩
    | some p =>
      obtain ⟨k', call'⟩ := p
      obtain ⟨hok, hsame⟩ := iterate_ring h hit
      unfold iterate at hit
      split_ifs at hit with hmore
      obtain ⟨rfl, rfl⟩ := Prod.mk.inj (Option.some.inj hit)
      obtain ⟨m, hm⟩ : ∃ m, call.len.toNat - call.buf.length = m + 1 := Nat.exists_eq_succ_of_ne_zero (by omega)
      have hpop : k.unread = k.kbuf k.kbufTail :: Ring.content kbufSize (k.ring.pop kbufSize) :=
        Ring.content_pop h hmore.2
      have hrest := @ih _ { call with buf := call.buf ++ [k.kbuf k.kbufTail] } hok (by
        dsimp only
        rw [length_append, length_singleton]
        omega)
      dsimp only at hrest
      refine ⟨hrest.1, hrest.2.1.trans ?_, hrest.2.2.trans hsame⟩
      rw [length_append, length_singleton, append_assoc, singleton_append, hm, hpop, take_succ_cons,
        show call.len.toNat - (call.buf.length + 1) = m by omega]
      rfl

/-- **`keyboard_read`** takes the oldest characters, up to `len`. -/
theorem keyboardRead_eq (h : k.ring.Ok kbufSize) (len : BitVec 32) :
    (k.keyboardRead len).2.ring.Ok kbufSize ∧ (k.keyboardRead len).1 = k.unread.take len.toNat ∧
      (k.keyboardRead len).2.unread = k.unread.drop len.toNat := by
  obtain ⟨hok, htake, hall⟩ := @readLoop_spec k ⟨len, []⟩ _ h (Nat.lt_succ_self _)
  refine ⟨hok, htake, ?_⟩
  rw [htake, nil_append, nil_append] at hall
  exact append_cancel_left (hall.trans (take_append_drop len.toNat k.unread).symm)

end Ring

/-! ## Interrupts and reads -/

/-- the driver, the call of `keyboard_read` that has not returned, and what was accepted and returned so far -/
structure Session where
  kbd : Keyboard
  call : Option Call
  accepted : List (BitVec 8)
  returned : List (List (BitVec 8))

namespace Session

/-- an interrupt, a call of `keyboard_read`, or a round of the loop of the call that has not returned -/
inductive Event where
  | irq (sc : BitVec 8)
  | read (len : BitVec 32)
  | round

def step (s : Session) : Event → Session
  | .irq sc =>
    { s with
      kbd := s.kbd.keyboardIrq sc
      accepted := match keyChar sc with
        | some c => if s.kbd.hasRoom then s.accepted ++ [c] else s.accepted
        | none => s.accepted }
  | .read len =>
    match s.call with
    | none => { s with call := some ⟨len, []⟩ }
    | some _ => s
  | .round =>
    match s.call with
    | none => s
    | some call =>
      match s.kbd.iterate call with
      | some (k, call) => { s with kbd := k, call := some call }
      | none => { s with call := none, returned := s.returned ++ [call.buf] }

/-- after `keyboard_init` -/
def start (k : Keyboard) : Session := ⟨k.keyboardInit, none, [], []⟩

def run (s : Session) (es : List Event) : Session := es.foldl step s

/-- the characters taken by the call that has not returned -/
def taken (s : Session) : List (BitVec 8) := match s.call with
  | some call => call.buf
  | none => []

/-- the indices are those of slots, and what was accepted was returned, is taken or is unread, in this order -/
structure Inv (s : Session) : Prop where
  ring : s.kbd.ring.Ok kbufSize
  order : s.returned.flatten ++ (s.taken ++ s.kbd.unread) = s.accepted

variable {s : Session}

theorem start_inv (k : Keyboard) : (start k).Inv := by
  have hring : (start k).kbd.ring.Ok kbufSize := ⟨show 0 < 256 by decide, show 0 < 256 by decide⟩
  refine ⟨hring, ?_⟩
  have hempty : (start k).kbd.unread = [] := by
    apply eq_nil_of_length_eq_zero
    rw [unread, Ring.content_length]
    exact (Ring.used_eq_zero hring).2 rfl
  rw [hempty]
  rfl

/-- **One event.** -/
theorem step_inv (h : s.Inv) (e : Event) : (s.step e).Inv := by
  have hring := h.ring
  have horder := h.order
  cases e with
  | irq sc =>
    obtain ⟨hok, hunread⟩ := keyboardIrq_spec hring sc
    have haccepted : (s.step (.irq sc)).accepted = s.accepted ++ if s.kbd.hasRoom then (keyChar sc).toList else [] := by
      cases hc : keyChar sc with
      | none => simp [step, hc]
      | some c =>
        simp only [step, hc]
        split_ifs
        · rfl
        · rw [append_nil]
    refine ⟨hok, ?_⟩
    change s.returned.flatten ++ (s.taken ++ (s.kbd.keyboardIrq sc).unread) = _
    rw [haccepted, hunread, ← horder]
    simp only [append_assoc]
  | read len =>
    cases hcall : s.call with
    | none =>
      have hstep : s.step (.read len) = { s with call := some ⟨len, []⟩ } := by simp only [step, hcall]
      have htaken : s.taken = [] := by rw [taken, hcall]
      rw [hstep]
      rw [htaken] at horder
      exact ⟨hring, horder⟩
    | some call =>
      have hstep : s.step (.read len) = s := by simp only [step, hcall]
      rw [hstep]
      exact h
  | round =>
    cases hcall : s.call with
    | none =>
      have hstep : s.step .round = s := by simp only [step, hcall]
      rw [hstep]
      exact h
    | some call =>
      have htaken : s.taken = call.buf := by rw [taken, hcall]
      rw [htaken] at horder
      cases hit : s.kbd.iterate call with
      | some p =>
        obtain ⟨k, call'⟩ := p
        have hstep : s.step .round = { s with kbd := k, call := some call' } := by simp only [step, hcall, hit]
        obtain ⟨hok, hsame⟩ := iterate_ring hring hit
        rw [hstep]
        refine ⟨hok, ?_⟩
        change s.returned.flatten ++ (call'.buf ++ k.unread) = s.accepted
        rw [hsame]
        exact horder
      | none =>
        have hstep : s.step .round = { s with call := none, returned := s.returned ++ [call.buf] } := by
          simp only [step, hcall, hit]
        rw [hstep]
        refine ⟨hring, ?_⟩
        change (s.returned ++ [call.buf]).flatten ++ ([] ++ s.kbd.unread) = s.accepted
        rw [flatten_append, flatten_singleton, nil_append, append_assoc]
        exact horder

/-- **Every run.** -/
theorem run_inv (h : s.Inv) (es : List Event) : (s.run es).Inv := by
  induction es generalizing s with
  | nil => exact h
  | cons e es ih => exact ih (step_inv h e)

/-- the number of characters accepted and not yet read -/
def pending (s : Session) : ℕ := s.accepted.length - (s.returned.flatten ++ s.taken).length

/-- what the buffer promises: what was returned, and what was taken so far, is the first part of what was accepted; the
indices stay below 256 and tell the number of unread characters; a key press is accepted, or 255 characters are
unread -/
structure Fifo (s : Session) : Prop where
  returned : s.returned.flatten <+: s.accepted
  taken : s.returned.flatten ++ s.taken <+: s.accepted
  head : s.kbd.kbufHead < 256
  tail : s.kbd.kbufTail < 256
  count : (s.pending : ℤ) = ((s.kbd.kbufHead : ℤ) - s.kbd.kbufTail) % 256
  lost : ∀ sc c, keyChar sc = some c → (s.step (.irq sc)).accepted = s.accepted ++ [c] ∨
    (s.step (.irq sc)).accepted = s.accepted ∧ s.pending = 255

/-- **The keyboard buffer is a queue**, after any interrupts, calls and rounds. -/
theorem keyboard_fifo (k : Keyboard) (es : List Event) : ((start k).run es).Fifo := by
  obtain ⟨hring, horder⟩ := run_inv (start_inv k) es
  generalize (start k).run es = s at hring horder
  have hsplit : (s.returned.flatten ++ s.taken) ++ s.kbd.unread = s.accepted := by rw [← horder, List.append_assoc]
  have hpending : s.pending = s.kbd.unread.length := by
    rw [pending, ← hsplit, List.length_append, Nat.add_sub_cancel_left]
  refine ⟨⟨_, horder⟩, ⟨_, hsplit⟩, hring.head, hring.tail, ?_, fun sc c hc => ?_⟩
  · rw [hpending, unread, Ring.content_length]
    exact Ring.used_sub hring
  · by_cases hroom : s.kbd.hasRoom
    · left
      simp only [step, hc, if_pos hroom]
    · right
      refine ⟨by simp only [step, hc, if_neg hroom], ?_⟩
      rw [hpending]
      exact not_not.1 (mt (hasRoom_iff hring).2 hroom)

end Session

end Keyboard

end Uix
