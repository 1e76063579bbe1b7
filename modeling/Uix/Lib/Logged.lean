/-
Computations that may stop and that leave a log, which is kept when they stop.

- `Logged`: a log and a result; a monad.
- `res_bind`: the results are those of the computations without the log.
- `Only`: every entry of the log meets a condition; `only_bind` splits it along a sequence.
-/
import Mathlib
import Uix.Lib.Machine

namespace Uix

open List

/-- a computation in `Except` with a log -/
structure Logged (ω ε α : Type) where
  log : List ω
  res : Except ε α

namespace Logged

open Machine

variable {ω ε α β : Type}

def bind (x : Logged ω ε α) (f : α → Logged ω ε β) : Logged ω ε β :=
  match x.res with
  | .error e => ⟨x.log, .error e⟩
  | .ok a => ⟨x.log ++ (f a).log, (f a).res⟩

instance : Monad (Logged ω ε) where
  pure a := ⟨[], .ok a⟩
  bind := bind

/-- one entry -/
def note (w : ω) : Logged ω ε Unit := ⟨[w], .ok ()⟩

/-- a computation without entries -/
def lift (x : Except ε α) : Logged ω ε α := ⟨[], x⟩

section Monad

variable {x : Logged ω ε α} {f : α → Logged ω ε β}

@[simp] theorem pure_log (a : α) : (pure a : Logged ω ε α).log = [] := rfl

@[simp] theorem pure_res (a : α) : (pure a : Logged ω ε α).res = .ok a := rfl

@[simp] theorem note_log (w : ω) : (note w : Logged ω ε Unit).log = [w] := rfl

@[simp] theorem note_res (w : ω) : (note w : Logged ω ε Unit).res = .ok () := rfl

@[simp] theorem lift_log (y : Except ε α) : (lift y : Logged ω ε α).log = [] := rfl

@[simp] theorem lift_res (y : Except ε α) : (lift y : Logged ω ε α).res = y := rfl

theorem bind_eq_ok {a : α} (h : x.res = .ok a) : x >>= f = ⟨x.log ++ (f a).log, (f a).res⟩ := by
  change bind x f = _
  rw [bind, h]

theorem bind_eq_error {e : ε} (h : x.res = .error e) : x >>= f = ⟨x.log, .error e⟩ := by
  change bind x f = _
  rw [bind, h]

/-- **The log does not change the result.** -/
@[simp] theorem res_bind (x : Logged ω ε α) (f : α → Logged ω ε β) : (x >>= f).res = x.res >>= fun a => (f a).res := by
  cases h : x.res with
  | error e => rw [bind_eq_error h]; rfl
  | ok a => rw [bind_eq_ok h]; rfl

end Monad

/-! ## What is in the log -/

/-- every entry meets `P` -/
def Only (P : ω → Prop) (x : Logged ω ε α) : Prop := ∀ w ∈ x.log, P w

section Only

variable {P : ω → Prop} {x : Logged ω ε α} {f : α → Logged ω ε β}

theorem only_pure (a : α) : Only P (pure a : Logged ω ε α) := fun _ hw => absurd hw not_mem_nil

theorem only_lift (y : Except ε α) : Only P (lift y : Logged ω ε α) := fun _ hw => absurd hw not_mem_nil

theorem only_note {w : ω} : Only P (note w : Logged ω ε Unit) ↔ P w := forall_mem_singleton

/-- **A sequence**: the first part, and the rest if the first part returns. -/
theorem only_bind : Only P (x >>= f) ↔ Only P x ∧ ∀ a, x.res = .ok a → Only P (f a) := by
  cases h : x.res with
  | error e =>
    rw [bind_eq_error h]
    exact ⟨fun hx => ⟨hx, fun a ha => by cases ha⟩, And.left⟩
  | ok a =>
    rw [bind_eq_ok h]
    constructor
    · intro hx
      obtain ⟨h1, h2⟩ := forall_mem_append.1 hx
      refine ⟨h1, fun a' ha' => ?_⟩
      cases ha'
      exact h2
    · rintro ⟨h1, h2⟩
      exact forall_mem_append.2 ⟨h1, h2 a rfl⟩

theorem Only.bind (hx : Only P x) (hf : ∀ a, x.res = .ok a → Only P (f a)) : Only P (x >>= f) := only_bind.2 ⟨hx, hf⟩

end Only

end Logged

end Uix
