/-
Machines whose steps may stop: a step is `σ → ο → Except ε σ`, a run is the monadic fold of a list of operations.

- `bind_ok`, `foldlM_cons_ok`: peel a successful computation apart; `bind_error`, `foldlM_error`: where it stops.
- `Meets`: a computation ends with a result or a stop, each with its postcondition; `Meets.bind`, `foldlM_meets` are the
  rules for sequencing and for loops.
- `foldlM_inv` / `run_inv`: what every successful step preserves holds after every successful run.
- `foldlM_expand`: a loop of loops as one loop.
- `Steps`: runs of a machine given by a step relation; `Steps.inv` for what every step preserves.
- `run_refines`: if every step from an invariant state succeeds, keeps the invariant and matches a step of an abstract
  machine, every run succeeds and matches an abstract run.
-/
import Mathlib

namespace Uix.Machine

open List

variable {ε α β σ ο : Type}

variable {x : Except ε α} {S : ε → Prop} {Q : α → Prop} {f : σ → α → Except ε σ} {l : List α} {e : ε} {s t : σ}

/-! ## Peeling computations in `Except` -/

theorem bind_ok {f : α → Except ε β} {b : β} :
    (x >>= f) = .ok b ↔ ∃ a, x = .ok a ∧ f a = .ok b := by
  cases x with
  | error e => simp [bind, Except.bind]
  | ok a => simp [bind, Except.bind]

/-- a computation stops in its first part or in the second -/
theorem bind_error {f : α → Except ε β} :
    (x >>= f) = .error e ↔ x = .error e ∨ ∃ a, x = .ok a ∧ f a = .error e := by
  cases x with
  | error e => simp [bind, Except.bind]
  | ok a => simp [bind, Except.bind]

theorem bind_pure_error {g : α → β} : (x >>= fun a => pure (g a)) = .error e ↔ x = .error e := by
  rw [bind_error, or_iff_left]
  rintro ⟨a, -, hc⟩
  cases hc

/-- a step that succeeds goes on with its result -/
theorem ok_bind (a : α) (f : α → Except ε β) : (Except.ok a >>= f) = f a := rfl

theorem pure_eq_ok (a : α) : (pure a : Except ε α) = .ok a := rfl

theorem pure_ok {a b : α} : (pure a : Except ε α) = .ok b ↔ a = b := by
  simp [pure, Except.pure]

theorem foldlM_cons_ok {a : α} :
    (a :: l).foldlM f s = .ok t ↔ ∃ u, f s a = .ok u ∧ l.foldlM f u = .ok t := by
  rw [foldlM_cons, bind_ok]

theorem foldlM_nil_ok : ([] : List α).foldlM f s = .ok t ↔ s = t := by
  rw [foldlM_nil, pure_ok]

/-- a loop stops in one of its steps -/
theorem foldlM_error :
    l.foldlM f s = .error e ↔ ∃ pre a post t, l = pre ++ a :: post ∧ pre.foldlM f s = .ok t ∧ f t a = .error e := by
  constructor
  · intro h
    induction l generalizing s with
    | nil => cases h
    | cons a l ih =>
      rw [foldlM_cons] at h
      cases hrun : f s a with
      | error e' =>
        rw [hrun] at h
        cases h
        exact ⟨[], a, l, s, rfl, rfl, hrun⟩
      | ok t =>
        rw [hrun, ok_bind] at h
        obtain ⟨pre, b, post, u, rfl, hpre, hstop⟩ := ih h
        exact ⟨a :: pre, b, post, u, rfl, foldlM_cons_ok.2 ⟨t, hrun, hpre⟩, hstop⟩
  · rintro ⟨pre, a, post, t, rfl, hpre, hstop⟩
    rw [foldlM_append, hpre, ok_bind, foldlM_cons, hstop]
    rfl

/-! ## Postconditions for results and stops -/

/-- the computation returns a result in `Q` or stops with a reason in `S` -/
structure Meets (x : Except ε α) (S : ε → Prop) (Q : α → Prop) : Prop where
  of_eq : ∀ {a}, x = .ok a → Q a
  stop : ∀ {e}, x = .error e → S e

theorem meets_ok {a : α} (h : Q a) : Meets (.ok a) S Q := by
  refine ⟨fun ha => ?_, fun he => by cases he⟩
  cases ha
  exact h

theorem meets_error (h : S e) : Meets (.error e) S Q := by
  refine ⟨fun ha => (by cases ha), fun he => ?_⟩
  cases he
  exact h

/-- without a reason to stop there is a result -/
theorem Meets.exists_ok (h : Meets x S Q) (hS : ∀ e, ¬ S e) :
    ∃ a, x = .ok a ∧ Q a := by
  cases x with
  | ok a => exact ⟨a, rfl, h.of_eq rfl⟩
  | error e => exact absurd (h.stop rfl) (hS e)

theorem Meets.mono {S' : ε → Prop} {Q' : α → Prop} (h : Meets x S Q) (hS : ∀ e, S e → S' e)
    (hQ : ∀ a, Q a → Q' a) : Meets x S' Q' := ⟨fun ha => hQ _ (h.of_eq ha), fun he => hS _ (h.stop he)⟩

/-- the result is known by the equation -/
theorem Meets.self (h : Meets x S Q) : Meets x S fun a => x = .ok a :=
  ⟨fun ha => ha, h.stop⟩

/-- **Sequencing.** -/
theorem Meets.bind {f : α → Except ε β} {P : α → Prop} {Q : β → Prop}
    (h : Meets x S P) (hf : ∀ a, P a → Meets (f a) S Q) : Meets (x >>= f) S Q := by
  cases x with
  | ok a => exact hf a (h.of_eq rfl)
  | error e => exact meets_error (h.stop rfl)

/-- **Loops.** The invariant speaks of the part of the list that is done. -/
theorem foldlM_meets (P : List α → σ → Prop) (h0 : P [] s)
    (hstep : ∀ pre a post s, l = pre ++ a :: post → P pre s → Meets (f s a) S (P (pre ++ [a]))) :
    Meets (l.foldlM f s) S (P l) := by
  suffices h : ∀ post pre s, l = pre ++ post → P pre s → Meets (post.foldlM f s) S (P l) from h l [] s rfl h0
  intro post
  induction post with
  | nil =>
    intro pre s hl hP
    rw [append_nil] at hl
    exact meets_ok (hl ▸ hP)
  | cons a post ih =>
    intro pre s hl hP
    rw [foldlM_cons]
    refine (hstep pre a post s hl hP).bind fun t ht => ?_
    exact ih (pre ++ [a]) t (by rw [hl, append_assoc]; rfl) ht

/-- the same with one invariant throughout -/
theorem foldlM_keeps (P : σ → Prop)
    (hstep : ∀ s a, a ∈ l → P s → Meets (f s a) S P) (h0 : P s) : Meets (l.foldlM f s) S P :=
  foldlM_meets (fun _ => P) h0 fun _ a _ s hl hP => hstep s a (hl ▸ mem_append_right _ mem_cons_self) hP

/-- a loop over consecutive numbers -/
theorem range_meets {f : σ → ℕ → Except ε σ} (P : ℕ → σ → Prop) {a n : ℕ} (h0 : P a s)
    (hstep : ∀ i s, a ≤ i → i < a + n → P i s → Meets (f s i) S (P (i + 1))) :
    Meets ((range' a n).foldlM f s) S (P (a + n)) := by
  induction n generalizing a s with
  | zero => exact meets_ok h0
  | succ n ih =>
    rw [range'_succ, foldlM_cons, show a + (n + 1) = a + 1 + n by omega]
    refine (hstep a s (Nat.le_refl a) (by omega) h0).bind fun t ht => ?_
    exact ih ht fun i s h1 h2 => hstep i s (by omega) (by omega)

/-! ## Two computations -/

/-- whenever the first computation returns, so does the second, and the results are related -/
def Follows (x : Except ε α) (y : Except ε β) (Q : α → β → Prop) : Prop := ∀ a, x = .ok a → ∃ b, y = .ok b ∧ Q a b

theorem follows_ok {Q : α → β → Prop} {a : α} {b : β} (h : Q a b) : Follows (.ok a : Except ε α) (.ok b) Q := by
  intro a' ha
  cases ha
  exact ⟨b, rfl, h⟩

theorem follows_error {Q : α → β → Prop} {y : Except ε β} : Follows (.error e : Except ε α) y Q := fun _ ha => by
  cases ha

theorem Follows.mono {y : Except ε β} {P Q : α → β → Prop} (h : Follows x y P)
    (hPQ : ∀ a b, x = .ok a → y = .ok b → P a b → Q a b) : Follows x y Q := by
  intro a ha
  obtain ⟨b, hb, hP⟩ := h a ha
  exact ⟨b, hb, hPQ a b ha hb hP⟩

/-- **Sequencing.** -/
theorem Follows.bind {γ δ : Type} {y : Except ε β} {f : α → Except ε γ} {g : β → Except ε δ}
    {P : α → β → Prop} {Q : γ → δ → Prop} (h : Follows x y P)
    (hf : ∀ a b, x = .ok a → y = .ok b → P a b → Follows (f a) (g b) Q) : Follows (x >>= f) (y >>= g) Q := by
  intro c hc
  obtain ⟨a, ha, hc⟩ := bind_ok.1 hc
  obtain ⟨b, hb, hP⟩ := h a ha
  obtain ⟨d, hd, hQ⟩ := hf a b ha hb hP c hc
  exact ⟨d, bind_ok.2 ⟨b, hb, hd⟩, hQ⟩

/-- **Loops.** The invariant speaks of the part of the list that is done. -/
theorem foldlM_follows {τ : Type} {g : τ → α → Except ε τ} (P : List α → σ → τ → Prop) {t : τ} (h0 : P [] s t)
    (hstep : ∀ pre a post s t, l = pre ++ a :: post → P pre s t → Follows (f s a) (g t a) (P (pre ++ [a]))) :
    Follows (l.foldlM f s) (l.foldlM g t) (P l) := by
  suffices h : ∀ post pre s t, l = pre ++ post → P pre s t → Follows (post.foldlM f s) (post.foldlM g t) (P l) from
    h l [] s t rfl h0
  intro post
  induction post with
  | nil =>
    intro pre s t hl hP
    rw [append_nil] at hl
    exact follows_ok (hl ▸ hP)
  | cons a post ih =>
    intro pre s t hl hP
    rw [foldlM_cons, foldlM_cons]
    refine (hstep pre a post s t hl hP).bind fun s' t' _ _ hP' => ?_
    exact ih (pre ++ [a]) s' t' (by rw [hl, append_assoc]; rfl) hP'

/-! ## Invariants -/

/-- what each successful step over the list preserves, the whole loop preserves -/
theorem foldlM_inv (P : σ → Prop)
    (hstep : ∀ s a t, a ∈ l → P s → f s a = .ok t → P t) (hs : P s) (h : l.foldlM f s = .ok t) : P t := by
  induction l generalizing s with
  | nil => rw [foldlM_nil_ok] at h; rwa [← h]
  | cons a l ih =>
    obtain ⟨u, hu, hl⟩ := foldlM_cons_ok.1 h
    exact ih (fun s b t hb => hstep s b t (mem_cons_of_mem a hb)) (hstep s a u mem_cons_self hs hu) hl

/-- **A loop of loops is one loop**, when each step of the outer loop is a loop in every state that the inner steps
keep -/
theorem foldlM_expand (P : σ → Prop) {g : σ → β → Except ε σ} {u : α → List β}
    (hP : ∀ s b t, P s → g s b = .ok t → P t) (h : ∀ s a, P s → f s a = (u a).foldlM g s) (hs : P s) :
    l.foldlM f s = (l.flatMap u).foldlM g s := by
  induction l generalizing s with
  | nil => rfl
  | cons a l ih =>
    rw [foldlM_cons, flatMap_cons, foldlM_append, h s a hs]
    cases hrun : (u a).foldlM g s with
    | error e => rfl
    | ok t =>
      rw [ok_bind, ok_bind]
      exact ih (foldlM_inv P (fun s b t _ => hP s b t) hs hrun)

/-! ## Runs -/

/-- run a list of operations, stopping at the first one that stops -/
def run (step : σ → ο → Except ε σ) (s : σ) (ops : List ο) : Except ε σ := ops.foldlM step s

theorem run_nil (step : σ → ο → Except ε σ) (s : σ) : run step s [] = .ok s := rfl

theorem run_cons_ok {step : σ → ο → Except ε σ} {o : ο} {ops : List ο} :
    run step s (o :: ops) = .ok t ↔ ∃ u, step s o = .ok u ∧ run step u ops = .ok t := foldlM_cons_ok

/-- **Invariant rule.** What every successful step preserves holds after every successful run. -/
theorem run_inv (P : σ → Prop) {step : σ → ο → Except ε σ} (hstep : ∀ s o t, P s → step s o = .ok t → P t)
    {ops : List ο} (hs : P s) (h : run step s ops = .ok t) : P t :=
  foldlM_inv P (fun s a t _ => hstep s a t) hs h

/-- runs of an abstract machine given by a step relation -/
inductive Steps {τ : Type} (R : τ → ο → τ → Prop) : τ → List ο → τ → Prop where
  | nil (t : τ) : Steps R t [] t
  | cons {t u v : τ} {o : ο} {ops : List ο} : R t o u → Steps R u ops v → Steps R t (o :: ops) v

theorem Steps.snoc {τ : Type} {R : τ → ο → τ → Prop} {s t u : τ} {o : ο} {ops : List ο} (h : Steps R s ops t)
    (h' : R t o u) : Steps R s (ops ++ [o]) u := by
  induction h with
  | nil => exact .cons h' (.nil _)
  | cons h1 _ ih => exact .cons h1 (ih h')

/-- **Invariants of runs.** -/
theorem Steps.inv {τ : Type} {R : τ → ο → τ → Prop} {P : τ → Prop} (hstep : ∀ s o t, P s → R s o t → P t) {s t : τ}
    {ops : List ο} (hs : P s) (h : Steps R s ops t) : P t := by
  induction h with
  | nil => exact hs
  | cons h1 _ ih => exact ih (hstep _ _ _ hs h1)

/-- **Refinement.** If from every invariant state every step succeeds, keeps the invariant and matches an abstract
step, every run succeeds and matches an abstract run. -/
theorem run_refines {τ : Type} (P : σ → Prop) (abs : σ → τ) (R : τ → ο → τ → Prop) {step : σ → ο → Except ε σ}
    (hstep : ∀ s o, P s → ∃ t, step s o = .ok t ∧ P t ∧ R (abs s) o (abs t)) (ops : List ο) (hs : P s) :
    ∃ t, run step s ops = .ok t ∧ P t ∧ Steps R (abs s) ops (abs t) := by
  induction ops generalizing s with
  | nil => exact ⟨s, rfl, hs, .nil _⟩
  | cons o ops ih =>
    obtain ⟨u, hu, hPu, hR⟩ := hstep s o hs
    obtain ⟨t, ht, hPt, hS⟩ := ih hPu
    exact ⟨t, run_cons_ok.2 ⟨u, hu, ht⟩, hPt, .cons hR hS⟩

end Uix.Machine
