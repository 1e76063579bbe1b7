/-
Radix trees stored in a memory of tables: each table is a row of `n` entries, an entry is absent, points to a table one
level down, or maps a page. Tables may be reached from several roots and from several entries; a tree is a root whose
list of tables has no duplicates.

- `gather`: collect something from every entry below a root. `tablesAt`, `linksAt` and `leavesAt` are its instances.
- `trail_congr`, `walk_congr`, `gather_congr`: a walk and a collection depend only on the tables below their entry.
- `gather_hole`, `walk_hole`, `trail_off_hole`: one entry of a tree changed, seen from the root.
- `Sim`: two trees of one shape; walks, leaves and tables of one are those of the other.
- `Patched`: a leaf changed in one of several trees.
- `Hole.walk_fresh`, `Hole.gather_fresh`: an absent entry made to point to a blank table changes no walk.
- `gap`: how many tables are missing on the way of a walk; `Hole.gap_fresh`: a blank table fills one gap, for the walks
  that come through it.
-/
import Mathlib

namespace Uix.Radix

open List Function

/-- how the entries of a table are read -/
structure Format (E : Type) where
  present : E → Bool
  /-- in a table of the given level: the entry maps a page itself -/
  large : ℕ → E → Bool
  next : E → ℕ

/-- tables by their frame -/
abbrev Mem (E : Type) (n : ℕ) := ℕ → Fin n → E

namespace Format

variable {E β : Type} {n : ℕ} (F : Format E)

/-- an entry of a table of level `l + 1` that points to a table of level `l` -/
def link (l : ℕ) (e : E) : Bool := F.present e && !F.large (l + 1) e

/-- the walk with indices `x` from table `f` of level `l`: the entry that maps a page, with its level -/
def walk (m : Mem E n) : ℕ → ℕ → (ℕ → Fin n) → Option (ℕ × E)
  | 0, f, x => if F.present (m f (x 0)) then some (0, m f (x 0)) else none
  | l + 1, f, x =>
    if F.link l (m f (x (l + 1))) then walk m l (F.next (m f (x (l + 1)))) x
    else if F.present (m f (x (l + 1))) then some (l + 1, m f (x (l + 1))) else none

/-- the entries that the walk reads -/
def trail (m : Mem E n) : ℕ → ℕ → (ℕ → Fin n) → List E
  | 0, f, x => [m f (x 0)]
  | l + 1, f, x =>
    m f (x (l + 1)) :: if F.link l (m f (x (l + 1))) then trail m l (F.next (m f (x (l + 1)))) x else []

/-- collect from entry `i` of table `f` of level `l` and everything below it -/
def gather (leaf : ℕ → E → List β) (node : E → List β) (m : Mem E n) : ℕ → ℕ → Fin n → List β
  | 0, f, i => if F.present (m f i) then leaf 0 (m f i) else []
  | l + 1, f, i =>
    if F.link l (m f i) then node (m f i) ++ (List.finRange n).flatMap (gather leaf node m l (F.next (m f i)))
    else if F.present (m f i) then leaf (l + 1) (m f i) else []

/-- the tables below an entry -/
def tablesAt (m : Mem E n) : ℕ → ℕ → Fin n → List ℕ := F.gather (fun _ _ => []) (fun e => [F.next e]) m

/-- the pointers to tables, from an entry on -/
def linksAt (m : Mem E n) : ℕ → ℕ → Fin n → List E := F.gather (fun _ _ => []) (fun e => [e]) m

/-- the entries that map pages, from an entry on, with their levels -/
def leavesAt (m : Mem E n) : ℕ → ℕ → Fin n → List (ℕ × E) := F.gather (fun l e => [(l, e)]) (fun _ => []) m

/-- the tables from `f` on, below the entries `is` of `f` -/
def tables (m : Mem E n) (l f : ℕ) (is : List (Fin n)) : List ℕ := f :: is.flatMap (F.tablesAt m l f)

def links (m : Mem E n) (l f : ℕ) (is : List (Fin n)) : List E := is.flatMap (F.linksAt m l f)

def leaves (m : Mem E n) (l f : ℕ) (is : List (Fin n)) : List (ℕ × E) := is.flatMap (F.leavesAt m l f)

variable {F} {leaf : ℕ → E → List β} {node : E → List β} {m m' : Mem E n} {x y : ℕ → Fin n} {l f k g : ℕ}
  {is : List (Fin n)} {i j : Fin n}

theorem gather_link (h : F.link l (m f i) = true) : F.gather leaf node m (l + 1) f i =
    node (m f i) ++ (finRange n).flatMap (F.gather leaf node m l (F.next (m f i))) := by
  rw [gather, if_pos h]

theorem tablesAt_link (h : F.link l (m f i) = true) :
    F.tablesAt m (l + 1) f i = F.tables m l (F.next (m f i)) (finRange n) := gather_link h

theorem leavesAt_link (h : F.link l (m f i) = true) :
    F.leavesAt m (l + 1) f i = F.leaves m l (F.next (m f i)) (finRange n) := gather_link h

theorem linksAt_link (h : F.link l (m f i) = true) :
    F.linksAt m (l + 1) f i = m f i :: F.links m l (F.next (m f i)) (finRange n) := gather_link h

theorem walk_link (h : F.link l (m f (x (l + 1))) = true) :
    F.walk m (l + 1) f x = F.walk m l (F.next (m f (x (l + 1)))) x := by
  rw [walk, if_pos h]

theorem link_present {e : E} (h : F.link l e = true) : F.present e = true := by
  rw [link, Bool.and_eq_true] at h
  exact h.1

/-- an absent entry has nothing below it -/
theorem gather_absent (h : F.present (m f i) = false) : F.gather leaf node m l f i = [] := by
  cases l with
  | zero => simp [gather, h]
  | succ l => simp [gather, link, h]

theorem walk_absent (h : F.present (m f (x l)) = false) : F.walk m l f x = none := by
  cases l with
  | zero => simp [walk, h]
  | succ l => simp [walk, link, h]

theorem walk_zero (hp : F.present (m f (x 0)) = true) : F.walk m 0 f x = some (0, m f (x 0)) := if_pos hp

theorem walk_large (hl : F.link l (m f (x (l + 1))) = false) (hp : F.present (m f (x (l + 1))) = true) :
    F.walk m (l + 1) f x = some (l + 1, m f (x (l + 1))) := by
  rw [walk, if_neg (by simp [hl]), if_pos hp]

/-! ## What a walk depends on -/

/-- a walk reads one index for each level -/
theorem walk_index (h : ∀ j ≤ l, y j = x j) : F.walk m l f y = F.walk m l f x := by
  induction l generalizing f with
  | zero => simp only [walk, h 0 le_rfl]
  | succ l ih => simp only [walk, h (l + 1) le_rfl, ih fun j hj => h j (Nat.le_succ_of_le hj)]

/-- **A collection depends only on its entry and the tables below it.** -/
theorem gather_congr {f' : ℕ} (he : m' f' i = m f i) (hs : ∀ g ∈ F.tablesAt m l f i, m' g = m g) :
    F.gather leaf node m' l f' i = F.gather leaf node m l f i := by
  induction l generalizing f f' i with
  | zero => simp only [gather, he]
  | succ l ih =>
    simp only [gather, he]
    by_cases hl : F.link l (m f i) = true
    · rw [if_pos hl, if_pos hl]
      rw [tablesAt_link hl] at hs
      have hn : m' (F.next (m f i)) = m (F.next (m f i)) := hs _ mem_cons_self
      refine congrArg (node (m f i) ++ ·) (flatMap_congr fun j hj => ?_)
      apply ih (congrFun hn j)
      intro g hg
      exact hs g (mem_cons_of_mem _ (mem_flatMap.2 ⟨j, hj, hg⟩))
    · rw [if_neg hl, if_neg hl]

theorem trail_link (h : F.link l (m f (x (l + 1))) = true) :
    F.trail m (l + 1) f x = m f (x (l + 1)) :: F.trail m l (F.next (m f (x (l + 1)))) x := by
  rw [trail, if_pos h]

theorem trail_congr {f' : ℕ} (he : m' f' (x l) = m f (x l)) (hs : ∀ g ∈ F.tablesAt m l f (x l), m' g = m g) :
    F.trail m' l f' x = F.trail m l f x := by
  induction l generalizing f f' with
  | zero => rw [trail, trail, he]
  | succ l ih =>
    rw [trail, trail, he]
    split_ifs with hl
    · rw [tablesAt_link hl] at hs
      have hn := hs _ mem_cons_self
      rw [ih (congrFun hn _)]
      intro g hg
      exact hs g (mem_cons_of_mem _ (mem_flatMap.2 ⟨_, mem_finRange _, hg⟩))
    · rfl

/-- a walk is determined by the entries it reads -/
theorem walk_of_trail {f' : ℕ} (h : F.trail m' l f' x = F.trail m l f x) : F.walk m' l f' x = F.walk m l f x := by
  induction l generalizing f f' with
  | zero => rw [walk, walk, (cons.inj h).1]
  | succ l ih =>
    obtain ⟨he, ht⟩ := cons.inj h
    rw [walk, walk, he]
    rw [he] at ht
    split_ifs at ht ⊢
    · exact ih ht
    · rfl
    · rfl

theorem walk_congr {f' : ℕ} (he : m' f' (x l) = m f (x l)) (hs : ∀ g ∈ F.tablesAt m l f (x l), m' g = m g) :
    F.walk m' l f' x = F.walk m l f x := walk_of_trail (trail_congr he hs)

/-- memories that agree at the entries `is` of `f` and on the tables below them -/
structure Agree (F : Format E) (m m' : Mem E n) (l f : ℕ) (is : List (Fin n)) : Prop where
  root : ∀ i ∈ is, m' f i = m f i
  below : ∀ i ∈ is, ∀ g ∈ F.tablesAt m l f i, m' g = m g

theorem Agree.of_tables (h : ∀ g ∈ F.tables m l f is, m' g = m g) : Agree F m m' l f is :=
  ⟨fun i _ => congrFun (h f mem_cons_self) i,
    fun i hi g hg => h g (mem_cons_of_mem _ (mem_flatMap.2 ⟨i, hi, hg⟩))⟩

theorem Agree.walk (h : Agree F m m' l f is) (hx : x l ∈ is) : F.walk m' l f x = F.walk m l f x :=
  walk_congr (h.root _ hx) (h.below _ hx)

theorem Agree.gather (h : Agree F m m' l f is) :
    is.flatMap (F.gather leaf node m' l f) = is.flatMap (F.gather leaf node m l f) :=
  flatMap_congr fun i hi => gather_congr (h.root i hi) (h.below i hi)

theorem Agree.tables (h : Agree F m m' l f is) : F.tables m' l f is = F.tables m l f is :=
  congrArg (f :: ·) h.gather

theorem Agree.tablesAt (h : Agree F m m' l f is) (hi : i ∈ is) : F.tablesAt m' l f i = F.tablesAt m l f i :=
  gather_congr (h.root i hi) (h.below i hi)

theorem Agree.leaves (h : Agree F m m' l f is) : F.leaves m' l f is = F.leaves m l f is := h.gather

theorem Agree.links (h : Agree F m m' l f is) : F.links m' l f is = F.links m l f is := h.gather

/-- a collection over a table with one present entry -/
theorem gather_single (hi : i ∈ is) (hn : is.Nodup) (h : ∀ j, j ≠ i → F.present (m f j) = false) :
    is.flatMap (F.gather leaf node m l f) = F.gather leaf node m l f i := by
  obtain ⟨a, b, rfl⟩ := append_of_mem hi
  have hnd := nodup_append.1 hn
  have ha : a.flatMap (F.gather leaf node m l f) = [] := flatMap_eq_nil_iff.2 fun j hj =>
    gather_absent (h j (hnd.2.2 j hj i mem_cons_self))
  have hb : b.flatMap (F.gather leaf node m l f) = [] := flatMap_eq_nil_iff.2 fun j hj =>
    gather_absent (h j fun hc => (nodup_cons.1 hnd.2.1).1 (hc ▸ hj))
  rw [flatMap_append, flatMap_cons, ha, hb, nil_append, append_nil]

/-! ## The tables on a path -/

/-- walking with `x` from table `f` of level `l` comes through table `g` of level `k` -/
inductive At (F : Format E) (m : Mem E n) (x : ℕ → Fin n) : ℕ → ℕ → ℕ → ℕ → Prop
  | here (l f : ℕ) : At F m x l f l f
  | down {l f k g : ℕ} : F.link l (m f (x (l + 1))) = true → At F m x l (F.next (m f (x (l + 1)))) k g →
      At F m x (l + 1) f k g

theorem At.le (h : At F m x l f k g) : k ≤ l := by
  induction h with
  | here => exact le_rfl
  | down _ _ ih => exact Nat.le_succ_of_le ih

theorem At.mem_tables (h : At F m x l f k g) (hx : x l ∈ is) : g ∈ F.tables m l f is := by
  induction h generalizing is with
  | here => exact mem_cons_self
  | down hl _ ih =>
    apply mem_cons_of_mem
    refine mem_flatMap.2 ⟨_, hx, ?_⟩
    rw [tablesAt_link hl]
    exact ih (mem_finRange _)

theorem At.mem_tablesAt (h : At F m x (l + 1) f k g) (hk : k ≤ l) : g ∈ F.tablesAt m (l + 1) f (x (l + 1)) := by
  cases h with
  | here => omega
  | down hl h =>
    rw [tablesAt_link hl]
    exact h.mem_tables (mem_finRange _)

theorem At.walk (h : At F m x l f k g) : F.walk m l f x = F.walk m k g x := by
  induction h with
  | here => rfl
  | down hl _ ih => rw [walk_link hl, ih]

/-- a walk comes through one table of each level -/
theorem At.unique {g' : ℕ} (h : At F m x l f k g) (h' : At F m x l f k g') : g = g' := by
  induction h with
  | here =>
    cases h' with
    | here => rfl
    | down _ hd => exact absurd hd.le (by omega)
  | down _ hd ih =>
    cases h' with
    | here => exact absurd hd.le (by omega)
    | down _ hd' => exact ih hd'

/-- another walk that takes the same entries comes through the same table -/
theorem At.congr (h : At F m x l f k g) (hy : ∀ j, k < j → j ≤ l → y j = x j) : At F m y l f k g := by
  induction h with
  | here => exact .here _ _
  | @down l f k g hl hp ih =>
    have hl' : y (l + 1) = x (l + 1) := hy _ (Nat.lt_succ_of_le hp.le) le_rfl
    refine .down (by rwa [hl']) ?_
    rw [hl']
    exact ih fun j h1 h2 => hy j h1 (Nat.le_succ_of_le h2)

theorem At.snoc (h : At F m x l f (k + 1) g) (hl : F.link k (m g (x (k + 1))) = true) :
    At F m x l f k (F.next (m g (x (k + 1)))) := by
  generalize hk : k + 1 = k' at h
  induction h with
  | here l f => subst hk; exact .down hl (.here _ _)
  | down hl' _ ih => exact .down hl' (ih hl hk)

/-- a path reads the tables below its root only -/
theorem At.agree (h : At F m x l f k g) (hx : x l ∈ is) (hA : Agree F m m' l f is) : At F m' x l f k g := by
  induction h generalizing is with
  | here => exact .here _ _
  | @down l f k g hl hp ih =>
    have he := hA.root _ hx
    have hbelow := hA.below _ hx
    rw [tablesAt_link hl] at hbelow
    refine .down (by rwa [he]) ?_
    rw [he]
    exact ih (mem_finRange _) (Agree.of_tables hbelow)

/-- a walk that ends at the lowest level goes through a table of that level -/
theorem exists_at_of_walk {e : E} (h : F.walk m l f x = some (0, e)) :
    ∃ g, At F m x l f 0 g ∧ m g (x 0) = e ∧ F.present e = true := by
  induction l generalizing f with
  | zero =>
    simp only [walk] at h
    by_cases hp : F.present (m f (x 0)) = true
    · rw [if_pos hp, Option.some.injEq, Prod.mk.injEq] at h
      exact ⟨f, .here _ _, h.2, h.2 ▸ hp⟩
    · rw [if_neg hp] at h
      exact absurd h (by simp)
  | succ l ih =>
    simp only [walk] at h
    by_cases hl : F.link l (m f (x (l + 1))) = true
    · rw [if_pos hl] at h
      obtain ⟨g, hg, he⟩ := ih h
      exact ⟨g, .down hl hg, he⟩
    · rw [if_neg hl] at h
      by_cases hp : F.present (m f (x (l + 1))) = true
      · rw [if_pos hp] at h
        simp at h
      · rw [if_neg hp] at h
        exact absurd h (by simp)

/-- the leaves are the ends of the walks -/
theorem mem_leavesAt {p : ℕ × E} : p ∈ F.leavesAt m l f i ↔ ∃ x : ℕ → Fin n, x l = i ∧ F.walk m l f x = some p := by
  induction l generalizing f i with
  | zero =>
    by_cases hp : F.present (m f i) = true
    · simp only [leavesAt, gather, walk, if_pos hp, mem_singleton]
      constructor
      · intro h
        exact ⟨fun _ => i, rfl, by rw [if_pos hp, h]⟩
      · rintro ⟨x, hx, h⟩
        rw [hx, if_pos hp, Option.some.injEq] at h
        exact h.symm
    · simp only [leavesAt, gather, walk, if_neg hp, not_mem_nil, false_iff, not_exists, not_and]
      intro x hx h
      rw [hx, if_neg hp] at h
      simp at h
  | succ l ih =>
    by_cases hl : F.link l (m f i) = true
    · simp only [leavesAt, gather_link hl, nil_append, mem_flatMap, mem_finRange, true_and]
      constructor
      · rintro ⟨j, hj⟩
        obtain ⟨x, -, h⟩ := ih.1 hj
        refine ⟨update x (l + 1) i, update_self .., ?_⟩
        have hlow : ∀ j ≤ l, update x (l + 1) i j = x j := fun j hj => update_of_ne (by omega) _ _
        rw [walk_link (by rwa [update_self]), update_self, walk_index hlow, h]
      · rintro ⟨x, hx, h⟩
        subst hx
        rw [walk_link hl] at h
        exact ⟨x l, ih.2 ⟨x, rfl, h⟩⟩
    · by_cases hp : F.present (m f i) = true
      · simp only [leavesAt, gather, walk, if_neg hl, if_pos hp, mem_singleton]
        constructor
        · intro h
          exact ⟨fun _ => i, rfl, by rw [if_neg hl, if_pos hp, h]⟩
        · rintro ⟨x, hx, h⟩
          rw [hx, if_neg hl, if_pos hp, Option.some.injEq] at h
          exact h.symm
      · simp only [leavesAt, gather, walk, if_neg hl, if_neg hp, not_mem_nil, false_iff, not_exists, not_and]
        intro x hx h
        rw [hx, if_neg hl, if_neg hp] at h
        simp at h

theorem mem_leaves {p : ℕ × E} : p ∈ F.leaves m l f is ↔ ∃ x : ℕ → Fin n, x l ∈ is ∧ F.walk m l f x = some p := by
  simp only [leaves, mem_flatMap, mem_leavesAt]
  constructor
  · rintro ⟨i, hi, x, hx, h⟩
    exact ⟨x, hx ▸ hi, h⟩
  · rintro ⟨x, hx, h⟩
    exact ⟨x l, hx, x, rfl, h⟩

/-- leaves below different entries are different members of the list of leaves -/
theorem index_unique {γ : Type} {φ : ℕ × E → γ} {p q : ℕ × E} (hn : ((F.leaves m l f is).map φ).Nodup) (hx : x l ∈ is)
    (hy : y l ∈ is) (hp : F.walk m l f x = some p) (hq : F.walk m l f y = some q) (h : φ p = φ q) : x l = y l := by
  rw [leaves, map_flatMap, nodup_flatMap] at hn
  by_contra hne
  have : Std.Symm (Function.onFun List.Disjoint fun i => (F.leavesAt m l f i).map φ) := ⟨fun _ _ h => h.symm⟩
  refine hn.2.forall hx hy hne (mem_map.2 ⟨p, mem_leavesAt.2 ⟨x, rfl, hp⟩, rfl⟩) ?_
  exact mem_map.2 ⟨q, mem_leavesAt.2 ⟨y, rfl, hq⟩, h.symm⟩

/-- **Where leaves are told apart, so are walks.** -/
theorem walk_unique {γ : Type} {φ : ℕ × E → γ} {p q : ℕ × E} (hn : ((F.leaves m l f is).map φ).Nodup) (hx : x l ∈ is)
    (hy : y l ∈ is) (hp : F.walk m l f x = some p) (hq : F.walk m l f y = some q) (h : φ p = φ q) :
    ∀ j, p.1 ≤ j → j ≤ l → x j = y j := by
  induction l generalizing f is with
  | zero =>
    intro j _ hj
    rw [Nat.le_zero.1 hj, index_unique hn hx hy hp hq h]
  | succ l ih =>
    intro j hpj hj
    have htop := index_unique hn hx hy hp hq h
    rcases Nat.lt_or_ge l j with hjl | hjl
    · rw [le_antisymm hj hjl, htop]
    cases hl : F.link l (m f (x (l + 1))) with
    | false =>
      -- the walk ends here, above level `j`
      rw [walk, if_neg (by simp [hl])] at hp
      split_ifs at hp
      rw [Option.some.injEq] at hp
      rw [← hp] at hpj
      exact absurd hpj (by simp; omega)
    | true =>
      rw [leaves, map_flatMap, nodup_flatMap] at hn
      have hdown := hn.1 _ hx
      rw [leavesAt_link hl] at hdown
      rw [walk_link hl] at hp
      rw [walk_link (htop ▸ hl), ← htop] at hq
      exact ih hdown (mem_finRange _) (mem_finRange _) hp hq j hpj hjl

/-! ## Changing one entry of a tree -/

/-- `m'` is `m` but for the entry that walk `x` reads in table `g`, as far as the tree of `f` goes -/
structure Hole (F : Format E) (m m' : Mem E n) (x : ℕ → Fin n) (is : List (Fin n)) (l f k g : ℕ) : Prop where
  path : At F m x l f k g
  mem : x l ∈ is
  nodup : is.Nodup
  tree : (F.tables m l f is).Nodup
  same : ∀ h ∈ F.tables m l f is, ∀ j, ¬ (h = g ∧ j = x k) → m' h j = m h j

/-- below different entries of one table there are different tables -/
theorem ne_of_tables {h h' : ℕ} (ht : (F.tables m l f is).Nodup) (hi : i ∈ is) (hj : j ∈ is) (hij : i ≠ j)
    (h1 : h ∈ F.tablesAt m l f i) (h2 : h' ∈ F.tablesAt m l f j) : h ≠ h' := by
  rintro rfl
  have hp := (nodup_flatMap.1 (nodup_cons.1 ht).2).2
  have : Std.Symm (Function.onFun List.Disjoint (F.tablesAt m l f)) := ⟨fun _ _ h => h.symm⟩
  exact hp.forall hi hj hij h1 h2

theorem root_ne_of_tables {h : ℕ} (ht : (F.tables m l f is).Nodup) (hi : i ∈ is) (h1 : h ∈ F.tablesAt m l f i) :
    h ≠ f := by
  rintro rfl
  exact (nodup_cons.1 ht).1 (mem_flatMap.2 ⟨i, hi, h1⟩)

theorem tables_nodup_down (ht : (F.tables m (l + 1) f is).Nodup) (hi : i ∈ is) (hl : F.link l (m f i) = true) :
    (F.tables m l (F.next (m f i)) (finRange n)).Nodup := by
  rw [← tablesAt_link hl]
  exact (nodup_flatMap.1 (nodup_cons.1 ht).2).1 i hi

namespace Hole

variable (H : Hole F m m' x is l f k g)
include H

/-- the hole is in the root table, or below the entry the walk takes -/
theorem place : (k = l ∧ g = f) ∨ g ∈ F.tablesAt m l f (x l) := by
  cases H.path with
  | here => exact .inl ⟨rfl, rfl⟩
  | down hl hp =>
    right
    rw [tablesAt_link hl]
    exact hp.mem_tables (mem_finRange _)

/-- entries of the root table beside the walk are as they were, with all that is below them -/
theorem beside (hj : j ∈ is) (hne : j ≠ x l) : m' f j = m f j ∧ ∀ h ∈ F.tablesAt m l f j, m' h = m h := by
  refine ⟨?_, ?_⟩
  · apply H.same f mem_cons_self
    rintro ⟨hf, hjk⟩
    rcases H.place with ⟨rfl, -⟩ | hg
    · exact hne hjk
    · exact root_ne_of_tables H.tree H.mem hg hf.symm
  · intro h hh
    funext j'
    apply H.same h (mem_cons_of_mem _ (mem_flatMap.2 ⟨j, hj, hh⟩))
    rintro ⟨rfl, -⟩
    rcases H.place with ⟨-, rfl⟩ | hg
    · exact root_ne_of_tables H.tree hj hh rfl
    · exact ne_of_tables H.tree hj H.mem hne hh hg rfl

end Hole

/-- one level down, the change is the same -/
theorem Hole.down {e : E} (H : Hole F m m' x is (l + 1) f k g) (he : m f (x (l + 1)) = e) (hl : F.link l e = true)
    (hp : At F m x l (F.next e) k g) :
    m' f (x (l + 1)) = e ∧ Hole F m m' x (finRange n) l (F.next e) k g := by
  subst he
  have hg : g ∈ F.tablesAt m (l + 1) f (x (l + 1)) := by
    rw [tablesAt_link hl]
    exact hp.mem_tables (mem_finRange _)
  refine ⟨?_, hp, mem_finRange _, nodup_finRange n, tables_nodup_down H.tree H.mem hl, ?_⟩
  · apply H.same f mem_cons_self
    rintro ⟨hf, -⟩
    exact root_ne_of_tables H.tree H.mem hg hf.symm
  · intro h hh
    apply H.same h
    apply mem_cons_of_mem
    refine mem_flatMap.2 ⟨_, H.mem, ?_⟩
    rwa [tablesAt_link hl]

theorem Hole.path_after (H : Hole F m m' x is l f k g) : At F m' x l f k g := by
  have hp := H.path
  induction hp generalizing is with
  | here => exact .here _ _
  | down hl hp ih =>
    obtain ⟨he, Hd⟩ := H.down rfl hl hp
    refine .down (by rwa [he]) ?_
    rw [he]
    exact ih Hd

/-- the entries of the root table before and after the one the walk takes -/
theorem Hole.gather_beside (leaf : ℕ → E → List β) (node : E → List β) (H : Hole F m m' x is l f k g)
    {a b : List (Fin n)} (hab : is = a ++ x l :: b) :
    a.flatMap (F.gather leaf node m' l f) = a.flatMap (F.gather leaf node m l f) ∧
      b.flatMap (F.gather leaf node m' l f) = b.flatMap (F.gather leaf node m l f) := by
  subst hab
  have hnd := nodup_append.1 H.nodup
  have hsame : ∀ j ∈ a ++ x l :: b, j ≠ x l → F.gather leaf node m' l f j = F.gather leaf node m l f j := by
    intro j hj hne
    obtain ⟨he, hs⟩ := H.beside hj hne
    exact gather_congr he hs
  constructor
  · refine flatMap_congr fun j hj => hsame j (mem_append_left _ hj) ?_
    exact hnd.2.2 j hj _ mem_cons_self
  · refine flatMap_congr fun j hj => hsame j (mem_append_right _ (mem_cons_of_mem _ hj)) ?_
    rintro rfl
    exact (nodup_cons.1 hnd.2.1).1 hj

/-- **A collection around a changed entry**: only the part from that entry on differs. -/
theorem gather_hole (leaf : ℕ → E → List β) (node : E → List β) (H : Hole F m m' x is l f k g) : ∃ pre post,
    is.flatMap (F.gather leaf node m l f) = pre ++ F.gather leaf node m k g (x k) ++ post ∧
      is.flatMap (F.gather leaf node m' l f) = pre ++ F.gather leaf node m' k g (x k) ++ post := by
  have hp := H.path
  induction hp generalizing is with
  | here l f =>
    obtain ⟨a, b, hab⟩ := append_of_mem H.mem
    obtain ⟨ha, hb⟩ := H.gather_beside leaf node hab
    refine ⟨a.flatMap (F.gather leaf node m l f), b.flatMap (F.gather leaf node m l f), ?_, ?_⟩
    · rw [hab, flatMap_append, flatMap_cons, append_assoc]
    · rw [hab, flatMap_append, flatMap_cons, ha, hb, append_assoc]
  | @down l f k g hl hp ih =>
    obtain ⟨he, Hd⟩ := H.down rfl hl hp
    obtain ⟨pre, post, h1, h2⟩ := ih Hd
    obtain ⟨a, b, hab⟩ := append_of_mem H.mem
    obtain ⟨ha, hb⟩ := H.gather_beside leaf node hab
    refine ⟨a.flatMap (F.gather leaf node m (l + 1) f) ++ (node (m f (x (l + 1))) ++ pre),
      post ++ b.flatMap (F.gather leaf node m (l + 1) f), ?_, ?_⟩
    · rw [hab, flatMap_append, flatMap_cons, gather_link hl, h1]
      simp only [append_assoc]
    · rw [hab, flatMap_append, flatMap_cons, gather_link (by rwa [he]), he, h2, ha, hb]
      simp only [append_assoc]

/-- a walk that takes the same entries as `x` down to the change goes through the changed entry -/
theorem walk_hole (H : Hole F m m' x is l f k g) (h : ∀ j, k < j → j ≤ l → y j = x j) :
    F.walk m' l f y = F.walk m' k g y := (H.path_after.congr h).walk

/-- any other walk reads what it read before -/
theorem trail_off_hole (H : Hole F m m' x is l f k g) (hy : y l ∈ is) (h : ∃ j, k ≤ j ∧ j ≤ l ∧ y j ≠ x j) :
    F.trail m' l f y = F.trail m l f y := by
  have hp := H.path
  induction hp generalizing is with
  | here l f =>
    obtain ⟨j, h1, h2, hj⟩ := h
    obtain rfl : j = l := le_antisymm h2 h1
    have hb := H.beside hy hj
    exact trail_congr hb.1 hb.2
  | @down l f k g hl hp ih =>
    by_cases hyl : y (l + 1) = x (l + 1)
    · obtain ⟨he, Hd⟩ := H.down rfl hl hp
      rw [trail_link (by rwa [hyl, he]), trail_link (by rwa [hyl]), hyl, he]
      obtain ⟨j, h1, h2, hj⟩ := h
      refine congrArg _ (ih Hd (mem_finRange _) ⟨j, h1, ?_, hj⟩)
      rcases Nat.lt_or_eq_of_le h2 with h2 | rfl
      · exact Nat.le_of_lt_succ h2
      · exact absurd hyl hj
    · have hb := H.beside hy hyl
      exact trail_congr hb.1 hb.2

theorem walk_off_hole (H : Hole F m m' x is l f k g) (hy : y l ∈ is) (h : ∃ j, k ≤ j ∧ j ≤ l ∧ y j ≠ x j) :
    F.walk m' l f y = F.walk m l f y := walk_of_trail (trail_off_hole H hy h)

/-! ## Adding a blank table -/

/-- an absent entry now points to the blank table `t`, which was not in the tree -/
structure Fresh (F : Format E) (m m' : Mem E n) (x : ℕ → Fin n) (k g t : ℕ) : Prop where
  absent : F.present (m g (x (k + 1))) = false
  link : F.link k (m' g (x (k + 1))) = true
  next : F.next (m' g (x (k + 1))) = t
  blank : ∀ j, F.present (m' t j) = false

theorem Fresh.gather {t : ℕ} (h : Fresh F m m' x k g t) :
    F.gather leaf node m' (k + 1) g (x (k + 1)) = node (m' g (x (k + 1))) := by
  rw [gather_link h.link, h.next]
  have : (finRange n).flatMap (F.gather leaf node m' k t) = [] :=
    flatMap_eq_nil_iff.2 fun j _ => gather_absent (h.blank j)
  rw [this, append_nil]

theorem Hole.gather_fresh {t : ℕ} (leaf : ℕ → E → List β) (node : E → List β)
    (H : Hole F m m' x is l f (k + 1) g) (h : Fresh F m m' x k g t) : ∃ pre post,
    is.flatMap (F.gather leaf node m l f) = pre ++ post ∧
      is.flatMap (F.gather leaf node m' l f) = pre ++ node (m' g (x (k + 1))) ++ post := by
  obtain ⟨pre, post, h1, h2⟩ := gather_hole leaf node H
  rw [gather_absent h.absent, append_nil] at h1
  rw [h.gather] at h2
  exact ⟨pre, post, h1, h2⟩

theorem Hole.tables_fresh {t : ℕ} (H : Hole F m m' x is l f (k + 1) g) (h : Fresh F m m' x k g t) :
    (F.tables m' l f is).Perm (F.tables m l f is ++ [t]) := by
  obtain ⟨pre, post, h1, h2⟩ := H.gather_fresh (fun _ _ => []) (fun e => [F.next e]) h
  rw [h.next] at h2
  simp only [tables, tablesAt, h1, h2]
  rw [cons_append, append_assoc, append_assoc]
  exact (perm_append_comm.append_left pre).cons f

/-- **A blank table changes no walk.** -/
theorem Hole.walk_fresh {t : ℕ} (H : Hole F m m' x is l f (k + 1) g) (h : Fresh F m m' x k g t) (hy : y l ∈ is) :
    F.walk m' l f y = F.walk m l f y := by
  by_cases hs : ∃ j, k + 1 ≤ j ∧ j ≤ l ∧ y j ≠ x j
  · exact walk_off_hole H hy hs
  · have heq : ∀ j, k + 1 ≤ j → j ≤ l → y j = x j := fun j h1 h2 => by
      by_contra hne
      exact hs ⟨j, h1, h2, hne⟩
    have hyk : y (k + 1) = x (k + 1) := heq _ le_rfl H.path.le
    have hnew : F.walk m' (k + 1) g y = none := by
      rw [walk_link (by rw [hyk]; exact h.link), hyk, h.next]
      exact walk_absent (h.blank _)
    have hold : F.walk m l f y = none := by
      rw [(H.path.congr fun j h1 h2 => heq j h1.le h2).walk]
      exact walk_absent (by rw [hyk]; exact h.absent)
    rw [walk_hole H fun j h1 h2 => heq j h1.le h2, hnew, hold]

/-! ## Tables missing on a way -/

/-- the level of the last table on the way of a walk: as many tables are missing below it -/
def gap (F : Format E) (m : Mem E n) : ℕ → ℕ → (ℕ → Fin n) → ℕ
  | 0, _, _ => 0
  | l + 1, f, x => if F.link l (m f (x (l + 1))) then gap F m l (F.next (m f (x (l + 1)))) x else l + 1

/-- the lowest level down to which two walks take the same entries -/
def split (x y : ℕ → Fin n) : ℕ → ℕ
  | 0 => 0
  | l + 1 => if y (l + 1) = x (l + 1) then split x y l else l + 1

theorem split_le_iff : split x y l ≤ k ↔ ∀ j, k < j → j ≤ l → y j = x j := by
  induction l with
  | zero =>
    simp only [split, Nat.zero_le, true_iff]
    intro j h1 h2
    omega
  | succ l ih =>
    rw [split]
    by_cases hl : y (l + 1) = x (l + 1)
    · rw [if_pos hl, ih]
      refine ⟨fun h j h1 h2 => ?_, fun h j h1 h2 => h j h1 (Nat.le_succ_of_le h2)⟩
      rcases Nat.lt_or_eq_of_le h2 with h2 | rfl
      · exact h j h1 (Nat.le_of_lt_succ h2)
      · exact hl
    · rw [if_neg hl]
      refine ⟨fun h j h1 h2 => absurd (lt_of_lt_of_le h1 h2) (Nat.not_lt.2 h), fun h => ?_⟩
      by_contra hk
      exact hl (h (l + 1) (Nat.not_le.1 hk) le_rfl)

theorem split_le : split x y l ≤ l := split_le_iff.2 fun _ h1 h2 => absurd h1 (Nat.not_lt.2 h2)

theorem gap_link (h : F.link l (m f (x (l + 1))) = true) :
    F.gap m (l + 1) f x = F.gap m l (F.next (m f (x (l + 1)))) x := if_pos h

theorem gap_stop (h : F.link l (m f (x (l + 1))) = false) : F.gap m (l + 1) f x = l + 1 := if_neg (by simp [h])

theorem gap_le : F.gap m l f x ≤ l := by
  induction l generalizing f with
  | zero => exact le_rfl
  | succ l ih =>
    rw [gap]
    split_ifs
    · exact Nat.le_succ_of_le ih
    · exact le_rfl

/-- in a blank table all tables below are missing -/
theorem gap_blank (h : ∀ j, F.present (m f j) = false) : F.gap m l f x = l := by
  cases l with
  | zero => rfl
  | succ l => exact gap_stop (by rw [link, h, Bool.false_and])

theorem gap_of_trail {f' : ℕ} (h : F.trail m' l f' x = F.trail m l f x) : F.gap m' l f' x = F.gap m l f x := by
  induction l generalizing f f' with
  | zero => rfl
  | succ l ih =>
    obtain ⟨he, ht⟩ := cons.inj h
    rw [gap, gap, he]
    rw [he] at ht
    split_ifs at ht ⊢
    · exact ih ht
    · rfl

theorem Agree.gap (h : Agree F m m' l f is) (hx : x l ∈ is) : F.gap m' l f x = F.gap m l f x :=
  gap_of_trail (trail_congr (h.root _ hx) (h.below _ hx))

theorem At.gap (h : At F m x l f k g) : F.gap m l f x = F.gap m k g x := by
  induction h with
  | here => rfl
  | down hl _ ih => rw [gap_link hl, ih]

/-- a table on the way leaves no gap above it -/
theorem At.gap_le (h : At F m x l f k g) : F.gap m l f x ≤ k := h.gap ▸ Format.gap_le

/-- **A blank table fills a gap** for the walks that come through it. -/
theorem Hole.gap_fresh {t : ℕ} (H : Hole F m m' x is l f (k + 1) g) (h : Fresh F m m' x k g t) (hy : y l ∈ is) :
    F.gap m' l f y = if split x y l ≤ k then k else F.gap m l f y := by
  by_cases hs : ∃ j, k + 1 ≤ j ∧ j ≤ l ∧ y j ≠ x j
  · rw [gap_of_trail (trail_off_hole H hy hs), if_neg]
    rw [split_le_iff]
    obtain ⟨j, h1, h2, hj⟩ := hs
    exact fun hc => hj (hc j h1 h2)
  · have heq : ∀ j, k < j → j ≤ l → y j = x j := fun j h1 h2 => by
      by_contra hne
      exact hs ⟨j, h1, h2, hne⟩
    have hyk : y (k + 1) = x (k + 1) := heq _ (Nat.lt_succ_self k) H.path.le
    rw [if_pos (split_le_iff.2 heq), (H.path_after.congr fun j h1 h2 => heq j (Nat.lt_of_succ_lt h1) h2).gap,
      gap_link (by rw [hyk]; exact h.link), hyk, h.next]
    exact gap_blank h.blank

/-- a leaf is not part of any gap -/
theorem Hole.gap_leaf (H : Hole F m m' x is l f 0 g) (hy : y l ∈ is) : F.gap m' l f y = F.gap m l f y := by
  by_cases hs : ∃ j, 0 ≤ j ∧ j ≤ l ∧ y j ≠ x j
  · exact gap_of_trail (trail_off_hole H hy hs)
  · have heq : ∀ j, 0 < j → j ≤ l → y j = x j := fun j _ h2 => by
      by_contra hne
      exact hs ⟨j, Nat.zero_le j, h2, hne⟩
    rw [(H.path_after.congr heq).gap, (H.path.congr heq).gap]
    rfl

/-! ## Trees of the same shape -/

/-- the tree of entry `i` of `f'` in `m'` has the shape of that of `f` in `m`: leaves of the lowest level correspond by
`φ`, pointers to tables by `R` -/
def Sim (F : Format E) (φ : E → E) (R : E → E → Prop) (m m' : Mem E n) : ℕ → ℕ → ℕ → Fin n → Prop
  | 0, f, f', i => F.present (m' f' i) = F.present (m f i) ∧ (F.present (m f i) = true → m' f' i = φ (m f i))
  | l + 1, f, f', i =>
    (F.present (m f i) = false ∧ F.present (m' f' i) = false) ∨
      (F.link l (m f i) = true ∧ F.link l (m' f' i) = true ∧ R (m f i) (m' f' i) ∧
        ∀ j, Sim F φ R m m' l (F.next (m f i)) (F.next (m' f' i)) j)

section Sim

variable {φ : E → E} {R : E → E → Prop} {f' : ℕ} {m₁ m₁' : Mem E n}

theorem Sim.walk (h : Sim F φ R m m' l f f' (y l)) : F.walk m' l f' y = (F.walk m l f y).map (Prod.map id φ) := by
  induction l generalizing f f' with
  | zero =>
    obtain ⟨hp, he⟩ := h
    cases hc : F.present (m f (y 0)) with
    | false => rw [walk_absent hc, walk_absent (hp.trans hc)]; rfl
    | true => rw [walk_zero hc, walk_zero (hp.trans hc), he hc]; rfl
  | succ l ih =>
    rcases h with ⟨h1, h2⟩ | ⟨h1, h2, -, h⟩
    · rw [walk_absent h1, walk_absent h2]; rfl
    · rw [walk_link h1, walk_link h2]
      exact ih (h _)

theorem Sim.leavesAt (h : Sim F φ R m m' l f f' i) :
    F.leavesAt m' l f' i = (F.leavesAt m l f i).map (Prod.map id φ) := by
  induction l generalizing f f' i with
  | zero =>
    obtain ⟨hp, he⟩ := h
    cases hc : F.present (m f i) with
    | false => rw [Format.leavesAt, gather_absent (hp.trans hc), Format.leavesAt, gather_absent hc]; rfl
    | true =>
      have hc' : F.present (φ (m f i)) = true := he hc ▸ hp.trans hc
      simp [Format.leavesAt, gather, hc, he hc, hc']
  | succ l ih =>
    rcases h with ⟨h1, h2⟩ | ⟨h1, h2, -, h⟩
    · rw [Format.leavesAt, gather_absent h2, Format.leavesAt, gather_absent h1]; rfl
    · simp only [Format.leavesAt, gather_link h1, gather_link h2, nil_append, map_flatMap]
      exact flatMap_congr fun j _ => ih (h j)

theorem Sim.linksAt (h : Sim F φ R m m' l f f' i) : List.Forall₂ R (F.linksAt m l f i) (F.linksAt m' l f' i) := by
  induction l generalizing f f' i with
  | zero => simp [Format.linksAt, gather]
  | succ l ih =>
    rcases h with ⟨h1, h2⟩ | ⟨h1, h2, hR, h⟩
    · rw [Format.linksAt, gather_absent h1, Format.linksAt, gather_absent h2]
      exact .nil
    · simp only [Format.linksAt, gather_link h1, gather_link h2, singleton_append]
      refine .cons hR ?_
      suffices hall : ∀ js : List (Fin n), List.Forall₂ R (js.flatMap (F.linksAt m l (F.next (m f i))))
          (js.flatMap (F.linksAt m' l (F.next (m' f' i)))) from hall _
      intro js
      induction js with
      | nil => exact .nil
      | cons j js ihj => exact rel_append (ih (h j)) ihj

/-- every pointer of the one tree corresponds to a pointer of the other -/
theorem Sim.exists_link {e' : E} (h : Sim F φ R m m' l f f' i) (he : e' ∈ F.linksAt m' l f' i) :
    ∃ e ∈ F.linksAt m l f i, R e e' := by
  have hall := h.linksAt
  generalize F.linksAt m l f i = L at hall ⊢
  generalize F.linksAt m' l f' i = L' at hall he
  induction hall with
  | nil => exact absurd he not_mem_nil
  | cons hR _ ih =>
    rcases mem_cons.1 he with rfl | he
    · exact ⟨_, mem_cons_self, hR⟩
    · obtain ⟨e, hmem, hRe⟩ := ih he
      exact ⟨e, mem_cons_of_mem _ hmem, hRe⟩

/-- the tables below an entry are what its pointers point to -/
theorem tablesAt_eq_map : F.tablesAt m l f i = (F.linksAt m l f i).map F.next := by
  induction l generalizing f i with
  | zero => simp [Format.tablesAt, Format.linksAt, gather]
  | succ l ih =>
    by_cases hl : F.link l (m f i) = true
    · simp only [Format.tablesAt, Format.linksAt, gather_link hl, map_append, map_flatMap]
      exact congrArg₂ _ rfl (flatMap_congr fun j _ => ih)
    · simp [Format.tablesAt, Format.linksAt, gather, hl]

theorem Sim.linksAt_eq (h : Sim F φ Eq m m' l f f' i) : F.linksAt m' l f' i = F.linksAt m l f i :=
  (List.forall₂_eq_eq_eq ▸ h.linksAt : F.linksAt m l f i = F.linksAt m' l f' i).symm

theorem Sim.tablesAt_eq (h : Sim F φ Eq m m' l f f' i) : F.tablesAt m' l f' i = F.tablesAt m l f i := by
  rw [tablesAt_eq_map, tablesAt_eq_map, h.linksAt_eq]

/-- the relation depends only on the entries and the tables below them -/
theorem Sim.congr (h : Sim F φ R m m' l f f' i) (h1 : m₁ f i = m f i) (h2 : ∀ g ∈ F.tablesAt m l f i, m₁ g = m g)
    (h1' : m₁' f' i = m' f' i) (h2' : ∀ g ∈ F.tablesAt m' l f' i, m₁' g = m' g) : Sim F φ R m₁ m₁' l f f' i := by
  induction l generalizing f f' i with
  | zero =>
    simp only [Sim, h1, h1'] at h ⊢
    exact h
  | succ l ih =>
    simp only [Sim, h1, h1'] at h ⊢
    refine h.imp_right ?_
    rintro ⟨hl, hl', hR, hs⟩
    rw [tablesAt_link hl] at h2
    rw [tablesAt_link hl'] at h2'
    refine ⟨hl, hl', hR, fun j => ih (hs j) ?_ ?_ ?_ ?_⟩
    · exact congrFun (h2 _ mem_cons_self) j
    · intro g hg
      exact h2 g (mem_cons_of_mem _ (mem_flatMap.2 ⟨j, mem_finRange j, hg⟩))
    · exact congrFun (h2' _ mem_cons_self) j
    · intro g hg
      exact h2' g (mem_cons_of_mem _ (mem_flatMap.2 ⟨j, mem_finRange j, hg⟩))

end Sim

variable {roots : List ℕ} {r t h f' : ℕ}

/-! ## Several trees in one memory -/

/-- the tables of all trees with the given roots -/
def forest (F : Format E) (m : Mem E n) (l : ℕ) (roots : List ℕ) (is : List (Fin n)) : List ℕ :=
  roots.flatMap fun r => F.tables m l r is

theorem mem_forest : g ∈ F.forest m l roots is ↔ ∃ r ∈ roots, g ∈ F.tables m l r is := mem_flatMap

theorem root_mem_forest (hr : r ∈ roots) : r ∈ F.forest m l roots is :=
  mem_forest.2 ⟨r, hr, mem_cons_self⟩

theorem tree_of_forest (h : (F.forest m l roots is).Nodup) (hr : r ∈ roots) :
    (F.tables m l r is).Nodup := (nodup_flatMap.1 h).1 r hr

/-- different roots have different tables -/
theorem ne_of_forest {r' h' : ℕ} (hf : (F.forest m l roots is).Nodup) (hr : r ∈ roots)
    (hr' : r' ∈ roots) (hne : r ≠ r') (h1 : h ∈ F.tables m l r is) (h2 : h' ∈ F.tables m l r' is) : h ≠ h' := by
  rintro rfl
  have hp := (nodup_flatMap.1 hf).2
  have : Std.Symm (Function.onFun List.Disjoint fun r => F.tables m l r is) := ⟨fun _ _ h => h.symm⟩
  exact hp.forall hr hr' hne h1 h2

theorem roots_nodup (h : (F.forest m l roots is).Nodup) : roots.Nodup := by
  induction roots with
  | nil => exact nodup_nil
  | cons r roots ih =>
    rw [forest, flatMap_cons, nodup_append] at h
    refine nodup_cons.2 ⟨fun hr => ?_, ih h.2.1⟩
    exact h.2.2 r mem_cons_self r (root_mem_forest hr) rfl

/-- the leaf, if any, that an entry of the lowest level is -/
def leafOf (F : Format E) (e : E) : List (ℕ × E) := if F.present e then [(0, e)] else []

/-- `m'` is `m` with the entry at the end of walk `x` from root `r` changed, in table `g` of the lowest level -/
structure Patched (F : Format E) (m m' : Mem E n) (l : ℕ) (roots : List ℕ) (is : List (Fin n)) (x : ℕ → Fin n)
    (r g : ℕ) : Prop where
  tables : ∀ r' ∈ roots, F.tables m' l r' is = F.tables m l r' is
  links : ∀ r' ∈ roots, F.links m' l r' is = F.links m l r' is
  hit : ∀ y : ℕ → Fin n, (∀ j ≤ l, y j = x j) →
    F.walk m' l r y = if F.present (m' g (x 0)) then some (0, m' g (x 0)) else none
  miss : ∀ r' ∈ roots, ∀ y : ℕ → Fin n, y l ∈ is → (r' ≠ r ∨ ∃ j ≤ l, y j ≠ x j) → F.walk m' l r' y = F.walk m l r' y
  leaves : ∃ pre post, F.leaves m l r is = pre ++ F.leafOf (m g (x 0)) ++ post ∧
    F.leaves m' l r is = pre ++ F.leafOf (m' g (x 0)) ++ post
  others : ∀ r' ∈ roots, r' ≠ r → F.leaves m' l r' is = F.leaves m l r' is
  root : ∀ r' ∈ roots, ∀ i, i ∉ is → m' r' i = m r' i
  path : At F m' x l r 0 g

/-- **Changing a leaf of a forest.** -/
theorem patched (hf : (F.forest m l roots is).Nodup) (his : is.Nodup) (hr : r ∈ roots)
    (hx : x l ∈ is) (hp : At F m x l r 0 g) (hsame : ∀ h j, ¬ (h = g ∧ j = x 0) → m' h j = m h j) :
    Patched F m m' l roots is x r g := by
  have H : Hole F m m' x is l r 0 g := ⟨hp, hx, his, tree_of_forest hf hr, fun h _ j hj => hsame h j hj⟩
  have hother : ∀ r' ∈ roots, r' ≠ r → Agree F m m' l r' is := by
    intro r' hr' hne
    refine Agree.of_tables fun h hh => funext fun i => hsame h i ?_
    rintro ⟨rfl, -⟩
    exact ne_of_forest hf hr' hr hne hh (hp.mem_tables hx) rfl
  constructor
  case tables =>
    intro r' hr'
    by_cases hne : r' = r
    · subst hne
      obtain ⟨pre, post, h1, h2⟩ := gather_hole (fun _ _ => []) (fun e => [F.next e]) H
      simp only [gather, ite_self] at h1 h2
      exact congrArg (r' :: ·) (h2.trans h1.symm)
    · exact (hother r' hr' hne).tables
  case links =>
    intro r' hr'
    by_cases hne : r' = r
    · subst hne
      obtain ⟨pre, post, h1, h2⟩ := gather_hole (fun _ _ => []) (fun e => [e]) H
      simp only [gather, ite_self] at h1 h2
      exact h2.trans h1.symm
    · exact (hother r' hr' hne).links
  case hit =>
    intro y hy
    rw [walk_hole H fun j _ hj => hy j hj, walk, hy 0 (Nat.zero_le l)]
  case miss =>
    intro r' hr' y hyl hy
    by_cases hne : r' = r
    · subst hne
      rcases hy with hy | ⟨j, hj, hy⟩
      · exact absurd rfl hy
      · exact walk_off_hole H hyl ⟨j, Nat.zero_le j, hj, hy⟩
    · exact (hother r' hr' hne).walk hyl
  case leaves => exact gather_hole (fun l e => [(l, e)]) (fun _ => []) H
  case others => exact fun r' hr' hne => (hother r' hr' hne).leaves
  case root =>
    intro r' hr' i hi
    apply hsame
    rintro ⟨rfl, rfl⟩
    by_cases hne : r' = r
    · subst hne
      rcases H.place with ⟨h0, -⟩ | hg
      · exact hi (h0 ▸ hx)
      · exact root_ne_of_tables H.tree hx hg rfl
    · exact ne_of_forest hf hr' hr hne mem_cons_self (hp.mem_tables hx) rfl
  case path => exact H.path_after

theorem Patched.forest (P : Patched F m m' l roots is x r g) :
    F.forest m' l roots is = F.forest m l roots is := flatMap_congr P.tables

end Format

/-- a collection over a list, changed for one member only -/
theorem flatMap_perm {α β : Type} {u u' : α → List β} {l : List α} {a : α} {c d : List β} (hl : l.Nodup) (ha : a ∈ l)
    (hu : (u' a ++ c).Perm (u a ++ d)) (hs : ∀ b ∈ l, b ≠ a → u' b = u b) :
    (l.flatMap u' ++ c).Perm (l.flatMap u ++ d) := by
  classical
  obtain ⟨p, q, rfl⟩ := append_of_mem ha
  have hnd := nodup_append.1 hl
  have hp : p.flatMap u' = p.flatMap u := flatMap_congr fun b hb =>
    hs b (mem_append_left _ hb) (hnd.2.2 b hb a mem_cons_self)
  have hq : q.flatMap u' = q.flatMap u := flatMap_congr fun b hb => by
    refine hs b (mem_append_right _ (mem_cons_of_mem _ hb)) ?_
    rintro rfl
    exact (nodup_cons.1 hnd.2.1).1 hb
  rw [flatMap_append, flatMap_append, flatMap_cons, flatMap_cons, hp, hq, perm_iff_count]
  intro z
  have := perm_iff_count.1 hu z
  simp only [count_append] at this ⊢
  omega

end Uix.Radix
