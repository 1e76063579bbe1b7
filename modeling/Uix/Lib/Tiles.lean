/-
Tilings of an interval of addresses by blocks `(start, length)`.

- `Tiling lo hi l`: the blocks of `l` are not empty, pairwise apart, and cover exactly `lo .. hi - 1`.
- `Tiling.perm`: the order of the blocks does not matter.
- `Tiling.split`, `Tiling.join`, `Tiling.extend`: cut a block, join two that touch, add one at the end.
- `Tiling.spaced_unique`: blocks in order with gaps between them that complete others to a tiling are unique.
-/
import Mathlib

namespace Uix.Tiles

open List

/-- the blocks do not overlap -/
def Apart (b c : ℕ × ℕ) : Prop := b.1 + b.2 ≤ c.1 ∨ c.1 + c.2 ≤ b.1

theorem Apart.symm {b c : ℕ × ℕ} (h : Apart b c) : Apart c b := Or.symm h

/-- the block contains the address -/
def In (x : ℕ) (b : ℕ × ℕ) : Prop := b.1 ≤ x ∧ x < b.1 + b.2

structure Tiling (lo hi : ℕ) (l : List (ℕ × ℕ)) : Prop where
  pos : ∀ b ∈ l, 0 < b.2
  apart : l.Pairwise Apart
  cover : ∀ x, (lo ≤ x ∧ x < hi) ↔ ∃ b ∈ l, In x b

variable {lo hi : ℕ} {l l' : List (ℕ × ℕ)} {a n k : ℕ} {b c : ℕ × ℕ}

theorem Tiling.perm (h : Tiling lo hi l) (hp : l.Perm l') : Tiling lo hi l' where
  pos b hb := h.pos b (hp.mem_iff.2 hb)
  apart := (hp.pairwise_iff (fun {_ _} hab => Apart.symm hab)).1 h.apart
  cover x := by
    rw [h.cover x]
    exact ⟨fun ⟨b, hb, hx⟩ => ⟨b, hp.mem_iff.1 hb, hx⟩, fun ⟨b, hb, hx⟩ => ⟨b, hp.mem_iff.2 hb, hx⟩⟩

theorem Tiling.bounds (h : Tiling lo hi l) (hb : b ∈ l) : lo ≤ b.1 ∧ b.1 + b.2 ≤ hi := by
  have h0 := h.pos b hb
  have h1 := (h.cover b.1).2 ⟨b, hb, le_rfl, by omega⟩
  have h2 := (h.cover (b.1 + b.2 - 1)).2 ⟨b, hb, by unfold In; omega⟩
  omega

/-- different blocks are apart -/
theorem Tiling.apart_of_ne (h : Tiling lo hi l) (hb : b ∈ l) (hc : c ∈ l) (hne : b ≠ c) : Apart b c := by
  have : Std.Symm Apart := ⟨fun _ _ => Apart.symm⟩
  exact h.apart.forall hb hc hne

theorem Tiling.nodup (h : Tiling lo hi l) : (l.map Prod.fst).Nodup := by
  refine List.Pairwise.map Prod.fst (fun _ _ h => h) (h.apart.imp_of_mem fun {b c} hb hc hbc he => ?_)
  have h1 := h.pos b hb
  have h2 := h.pos c hc
  unfold Apart at hbc
  omega

/-- there are no more blocks than addresses -/
theorem Tiling.length_le (h : Tiling lo hi l) : l.length ≤ hi - lo := by
  have hsub : (l.map Prod.fst).toFinset ⊆ Finset.Ico lo hi := fun x hx => by
    obtain ⟨b, hb, rfl⟩ := mem_map.1 (mem_toFinset.1 hx)
    have h1 := h.bounds hb
    have h2 := h.pos b hb
    exact Finset.mem_Ico.2 (by omega)
  have := Finset.card_le_card hsub
  rwa [toFinset_card_of_nodup h.nodup, length_map, Nat.card_Ico] at this

/-- cut a block in two -/
theorem Tiling.split (h : Tiling lo hi ((a, n + k) :: l)) (hn : 0 < n) (hk : 0 < k) :
    Tiling lo hi ((a, n) :: (a + n, k) :: l) := by
  obtain ⟨hb, hl⟩ := pairwise_cons.1 h.apart
  refine ⟨fun b hb => ?_, ?_, fun x => ?_⟩
  · rcases mem_cons.1 hb with rfl | hb
    · exact hn
    · rcases mem_cons.1 hb with rfl | hb
      · exact hk
      · exact h.pos b (mem_cons_of_mem _ hb)
  · refine pairwise_cons.2 ⟨fun c hc => ?_, pairwise_cons.2 ⟨fun c hc => ?_, hl⟩⟩
    · rcases mem_cons.1 hc with rfl | hc
      · exact Or.inl le_rfl
      · have := hb c hc
        unfold Apart at *
        simp only at *
        omega
    · have := hb c hc
      unfold Apart at *
      simp only at *
      omega
  · rw [h.cover x]
    simp only [mem_cons, exists_eq_or_imp, In]
    constructor
    · rintro (⟨h1, h2⟩ | h')
      · by_cases hx : x < a + n
        · exact Or.inl ⟨h1, hx⟩
        · exact Or.inr (Or.inl ⟨by omega, by omega⟩)
      · exact Or.inr (Or.inr h')
    · rintro (⟨h1, h2⟩ | ⟨h1, h2⟩ | h')
      · exact Or.inl ⟨h1, by omega⟩
      · exact Or.inl ⟨by omega, by omega⟩
      · exact Or.inr h'

/-- join two blocks that touch -/
theorem Tiling.join (h : Tiling lo hi ((a, n) :: (a + n, k) :: l)) : Tiling lo hi ((a, n + k) :: l) := by
  obtain ⟨hb, hl⟩ := pairwise_cons.1 h.apart
  obtain ⟨hc, hl⟩ := pairwise_cons.1 hl
  have hn : 0 < n := h.pos (a, n) mem_cons_self
  have hpos : ∀ d ∈ l, 0 < d.2 := fun d hd => h.pos d (by simp [hd])
  refine ⟨fun d hd => ?_, pairwise_cons.2 ⟨fun d hd => ?_, hl⟩, fun x => ?_⟩
  · rcases mem_cons.1 hd with rfl | hd
    · exact Nat.add_pos_left hn k
    · exact hpos d hd
  · have h1 := hb d (mem_cons_of_mem _ hd)
    have h2 := hc d hd
    have h3 := hpos d hd
    unfold Apart at *
    simp only at *
    omega
  · rw [h.cover x]
    simp only [mem_cons, exists_eq_or_imp, In]
    constructor
    · rintro (⟨h1, h2⟩ | ⟨h1, h2⟩ | h')
      · exact Or.inl ⟨h1, by omega⟩
      · exact Or.inl ⟨by omega, by omega⟩
      · exact Or.inr h'
    · rintro (⟨h1, h2⟩ | h')
      · by_cases hx : x < a + n
        · exact Or.inl ⟨h1, hx⟩
        · exact Or.inr (Or.inl ⟨by omega, by omega⟩)
      · exact Or.inr (Or.inr h')

/-- add a block at the end -/
theorem Tiling.extend (h : Tiling lo hi l) (hle : lo ≤ hi) (hn : 0 < n) : Tiling lo (hi + n) ((hi, n) :: l) := by
  refine ⟨fun b hb => ?_, pairwise_cons.2 ⟨fun c hc => Or.inr (h.bounds hc).2, h.apart⟩, fun x => ?_⟩
  · rcases mem_cons.1 hb with rfl | hb
    · exact hn
    · exact h.pos b hb
  · simp only [mem_cons, exists_eq_or_imp]
    rw [← h.cover x]
    unfold In
    simp only
    omega

theorem Tiling.single (hn : 0 < n) : Tiling lo (lo + n) [(lo, n)] := by
  refine ⟨by simpa using hn, pairwise_singleton _ _, fun x => ?_⟩
  simp [In]

/-! ## Spaced blocks -/

section Spaced

variable {u u' : List (ℕ × ℕ)} {x : ℕ}

/-- some block of the list contains the address -/
def Covers (l : List (ℕ × ℕ)) (x : ℕ) : Prop := ∃ b ∈ l, In x b

theorem covers_cons : Covers (b :: l) x ↔ In x b ∨ Covers l x := by
  simp [Covers]

/-- in order of address, with a gap between each two -/
def Spaced (l : List (ℕ × ℕ)) : Prop := l.Pairwise fun b c => b.1 + b.2 < c.1

/-- behind the first block of a spaced list nothing is covered before the gap ends -/
theorem Spaced.behind (h : Spaced (b :: l)) (hx : Covers l x) : b.1 + b.2 < x := by
  obtain ⟨c, hc, hin⟩ := hx
  have := (pairwise_cons.1 h).1 c hc
  unfold In at hin
  omega

/-- **A spaced list is determined by what it covers.** -/
theorem Spaced.unique (h : Spaced l) (h' : Spaced l') (hp : ∀ b ∈ l, 0 < b.2) (hp' : ∀ b ∈ l', 0 < b.2)
    (hc : ∀ x, Covers l x ↔ Covers l' x) : l = l' := by
  induction l generalizing l' with
  | nil =>
    cases l' with
    | nil => rfl
    | cons c l' =>
      have h0 := hp' c mem_cons_self
      obtain ⟨d, hd, -⟩ := (hc c.1).2 ⟨c, mem_cons_self, le_rfl, by omega⟩
      exact absurd hd (not_mem_nil)
  | cons b l ih =>
    cases l' with
    | nil =>
      have h0 := hp b mem_cons_self
      obtain ⟨d, hd, -⟩ := (hc b.1).1 ⟨b, mem_cons_self, le_rfl, by omega⟩
      exact absurd hd (not_mem_nil)
    | cons c l' =>
      have hb := hp b mem_cons_self
      have hc0 := hp' c mem_cons_self
      simp only [covers_cons, In] at hc
      -- the least address covered starts both lists, the first gap ends both first blocks
      have hle : c.1 ≤ b.1 := by
        rcases (hc b.1).1 (Or.inl ⟨le_rfl, by omega⟩) with h1 | h1
        · exact h1.1
        · have := h'.behind h1
          omega
      have hge : b.1 ≤ c.1 := by
        rcases (hc c.1).2 (Or.inl ⟨le_rfl, by omega⟩) with h1 | h1
        · exact h1.1
        · have := h.behind h1
          omega
      have hend : b.2 = c.2 := by
        rcases Nat.lt_trichotomy b.2 c.2 with hlt | heq | hlt
        · rcases (hc (b.1 + b.2)).2 (Or.inl ⟨by omega, by omega⟩) with h1 | h1
          · omega
          · have := h.behind h1
            omega
        · exact heq
        · rcases (hc (c.1 + c.2)).1 (Or.inl ⟨by omega, by omega⟩) with h1 | h1
          · omega
          · have := h'.behind h1
            omega
      obtain rfl : b = c := Prod.ext (hge.antisymm hle) hend
      refine congrArg (b :: ·) (ih (pairwise_cons.1 h).2 (pairwise_cons.1 h').2
        (fun d hd => hp d (mem_cons_of_mem _ hd)) (fun d hd => hp' d (mem_cons_of_mem _ hd)) fun x => ?_)
      constructor
      · intro hx
        rcases (hc x).1 (Or.inr hx) with h1 | h1
        · have := h.behind hx
          omega
        · exact h1
      · intro hx
        rcases (hc x).2 (Or.inr hx) with h1 | h1
        · have := h'.behind hx
          omega
        · exact h1

/-- what the second part of a tiling covers is what the first leaves -/
theorem Tiling.covers_right (h : Tiling lo hi (u ++ l)) (x : ℕ) : Covers l x ↔ (lo ≤ x ∧ x < hi) ∧ ¬ Covers u x := by
  constructor
  · rintro ⟨b, hb, hx⟩
    refine ⟨(h.cover x).2 ⟨b, mem_append_right u hb, hx⟩, ?_⟩
    rintro ⟨c, hc, hx'⟩
    have := (pairwise_append.1 h.apart).2.2 c hc b hb
    unfold Apart at this
    unfold In at hx hx'
    omega
  · rintro ⟨hx, hn⟩
    obtain ⟨b, hb, hin⟩ := (h.cover x).1 hx
    rcases mem_append.1 hb with hb | hb
    · exact absurd ⟨b, hb, hin⟩ hn
    · exact ⟨b, hb, hin⟩

/-- **Spaced remainders.** The blocks that complete `u` to a tiling, if spaced, depend only on the set of `u`. -/
theorem Tiling.spaced_unique (h : Tiling lo hi (u ++ l)) (h' : Tiling lo hi (u' ++ l')) (hu : ∀ b, b ∈ u ↔ b ∈ u')
    (hs : Spaced l) (hs' : Spaced l') : l = l' := by
  refine hs.unique hs' (fun b hb => h.pos b (mem_append_right _ hb))
    (fun b hb => h'.pos b (mem_append_right _ hb)) fun x => ?_
  rw [h.covers_right, h'.covers_right]
  unfold Covers
  simp only [hu]

end Spaced

end Uix.Tiles
