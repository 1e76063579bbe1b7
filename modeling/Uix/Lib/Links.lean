/-
Singly linked lists threaded through a `next` field. Nodes are nonzero numbers (pointers), 0 is the null pointer.

- `Seg next a l e`: from `a` the links pass through the nodes `l` and arrive at `e`.
- `Chain next a l`: a null-terminated list; it determines its nodes (`chain_unique`) and has no repetition
  (`chain_nodup`), so a list that is represented at all is acyclic.
- `seg_congr`, `seg_update`: a change of a link outside the segment does not matter.
- `seg_append`, `chain_snoc`: cutting and joining.
-/
import Mathlib

namespace Uix.Links

open List Function

/-- from `a` the links pass through `l` and arrive at `e` -/
def Seg (next : ℕ → ℕ) : ℕ → List ℕ → ℕ → Prop
  | a, [], e => a = e
  | a, b :: l, e => a = b ∧ b ≠ 0 ∧ Seg next (next b) l e

/-- the null-terminated list from `a` has the nodes `l` -/
def Chain (next : ℕ → ℕ) (a : ℕ) (l : List ℕ) : Prop := Seg next a l 0

variable {next next' : ℕ → ℕ} {a b e : ℕ} {l l' : List ℕ}

theorem seg_nil : Seg next a [] e ↔ a = e := Iff.rfl

theorem seg_cons : Seg next a (b :: l) e ↔ a = b ∧ b ≠ 0 ∧ Seg next (next b) l e := Iff.rfl

theorem chain_nil : Chain next a [] ↔ a = 0 := Iff.rfl

theorem chain_cons : Chain next a (b :: l) ↔ a = b ∧ b ≠ 0 ∧ Chain next (next b) l := Iff.rfl

theorem seg_append {l₁ l₂ : List ℕ} : Seg next a (l₁ ++ l₂) e ↔ ∃ c, Seg next a l₁ c ∧ Seg next c l₂ e := by
  induction l₁ generalizing a with
  | nil => simp [seg_nil]
  | cons b l₁ ih =>
    simp only [cons_append, seg_cons, ih]
    constructor
    · rintro ⟨h1, h2, c, h3, h4⟩; exact ⟨c, ⟨h1, h2, h3⟩, h4⟩
    · rintro ⟨c, ⟨h1, h2, h3⟩, h4⟩; exact ⟨h1, h2, c, h3, h4⟩

theorem seg_ne_zero (h : Seg next a l e) : ∀ b ∈ l, b ≠ 0 := by
  induction l generalizing a with
  | nil => simp
  | cons c l ih =>
    obtain ⟨_, hc, h⟩ := seg_cons.1 h
    intro b hb
    rcases mem_cons.1 hb with rfl | hb
    · exact hc
    · exact ih h b hb

/-- a segment depends only on the links of its own nodes -/
theorem seg_congr (h : ∀ b ∈ l, next' b = next b) : Seg next' a l e ↔ Seg next a l e := by
  induction l generalizing a with
  | nil => rfl
  | cons b l ih =>
    rw [seg_cons, seg_cons, h b mem_cons_self, ih fun c hc => h c (mem_cons_of_mem b hc)]

theorem chain_congr (h : ∀ b ∈ l, next' b = next b) : Chain next' a l ↔ Chain next a l := seg_congr h

theorem seg_update {c v : ℕ} (hc : c ∉ l) : Seg (update next c v) a l e ↔ Seg next a l e :=
  seg_congr fun _ hb => update_of_ne (ne_of_mem_of_not_mem hb hc) v next

/-- the links determine the nodes -/
theorem chain_unique (h : Chain next a l) (h' : Chain next a l') : l = l' := by
  induction l generalizing a l' with
  | nil =>
    cases l' with
    | nil => rfl
    | cons b l' =>
      obtain ⟨rfl, hb, _⟩ := chain_cons.1 h'
      exact absurd h hb
  | cons b l ih =>
    obtain ⟨rfl, hb, h⟩ := chain_cons.1 h
    cases l' with
    | nil => exact absurd h' hb
    | cons c l' =>
      obtain ⟨rfl, _, h'⟩ := chain_cons.1 h'
      rw [ih h h']

/-- the tail of a list from one of its nodes on -/
theorem chain_drop {l₁ l₂ : List ℕ} (h : Chain next a (l₁ ++ b :: l₂)) : Chain next b (b :: l₂) := by
  obtain ⟨c, _, h⟩ := seg_append.1 h
  obtain ⟨rfl, hb, h⟩ := seg_cons.1 h
  exact ⟨rfl, hb, h⟩

/-- **A null-terminated list is acyclic.** -/
theorem chain_nodup (h : Chain next a l) : l.Nodup := by
  induction l generalizing a with
  | nil => exact nodup_nil
  | cons b l ih =>
    obtain ⟨rfl, hb, hl⟩ := chain_cons.1 h
    refine nodup_cons.2 ⟨fun hmem => ?_, ih hl⟩
    -- a second visit of `a` would start the same list again, which is longer than what is left
    obtain ⟨l₁, l₂, rfl⟩ := append_of_mem hmem
    have h2 : Chain next a (a :: l₂) := chain_drop hl
    have := congrArg List.length (chain_unique h h2)
    simp at this
    omega

/-- redirecting the last link -/
theorem seg_relink {q v : ℕ} (h : Seg next a (l ++ [q]) e) (hl : ∀ b ∈ l, next' b = next b) (hq : next' q = v) :
    Seg next' a (l ++ [q]) v := by
  obtain ⟨d, h1, rfl, hd, _⟩ := seg_append.1 h
  exact seg_append.2 ⟨d, (seg_congr hl).2 h1, rfl, hd, hq⟩

/-- the last link leads to the end -/
theorem seg_last {q : ℕ} (h : Seg next a (l ++ [q]) e) : next q = e := by
  obtain ⟨d, _, rfl, _, h⟩ := seg_append.1 h
  exact h

theorem chain_head (h : Chain next a l) : a = l.headD 0 := by
  cases l with
  | nil => exact h
  | cons b l => exact (chain_cons.1 h).1

/-- unlinking the first node -/
theorem chain_unlink_head (h : Chain next a (b :: l)) : Chain (update next b 0) (next b) l :=
  (seg_update (nodup_cons.1 (chain_nodup h)).1).2 (chain_cons.1 h).2.2

/-- unlinking a node behind another one -/
theorem chain_unlink {c : ℕ} (h : Chain next a (l ++ [c] ++ b :: l')) :
    Chain (update (update next c (next b)) b 0) a (l ++ [c] ++ l') := by
  have hnd := chain_nodup h
  obtain ⟨d, h1, rfl, hb, h2⟩ := seg_append.1 h
  have hc : c ∉ l ∧ c ∉ l' ∧ d ∉ l ++ [c] ∧ d ∉ l' := by grind
  have hdc : c ≠ d := fun e => hc.2.2.1 (by simp [e])
  refine seg_append.2 ⟨next d, ?_, ?_⟩
  · refine (seg_update hc.2.2.1).2 (seg_relink h1 (fun x hx => ?_) (update_self ..))
    exact update_of_ne (ne_of_mem_of_not_mem hx hc.1) _ _
  · exact (seg_update hc.2.2.2).2 ((seg_update hc.2.1).2 h2)

/-- linking a node behind the last one -/
theorem chain_snoc (h : Chain next a (l ++ [b])) {c : ℕ} (hc : c ∉ l ++ [b]) (hc0 : c ≠ 0) :
    Chain (update (update next c 0) b c) a (l ++ [b] ++ [c]) := by
  have hnd := chain_nodup h
  have hbl : b ∉ l := fun hb => by
    have := (nodup_append.1 hnd).2.2 b hb b (by simp)
    exact this rfl
  have hcb : c ≠ b := fun e => hc (by simp [e])
  obtain ⟨d, h1, h2⟩ := seg_append.1 h
  obtain ⟨rfl, hb0, _⟩ := seg_cons.1 h2
  rw [append_assoc]
  refine seg_append.2 ⟨d, ?_, rfl, hb0, ?_⟩
  · exact (seg_update hbl).2 ((seg_update fun hcl => hc (by simp [hcl])).2 h1)
  · rw [update_self]
    exact ⟨rfl, hc0, by rw [update_of_ne hcb, update_self]; rfl⟩

end Uix.Links
