/-
How many pages `vmm_map` takes: one for each table that is missing on the way to the address. With this the point at
which memory runs out is known from the addresses alone.

- `vmmMap_demand`: the pages taken, and the tables missing afterwards. It stops exactly if there are fewer.
- `Stocked`: a space with some pages mapped in it, and where `pmm_alloc` has taken them from.
- `Stocked.attached`, `Stocked.write`: one page more, one byte more.
- `Stocked.mapPage`: a page as it is. When memory runs out the entry is filled with page 0 exactly if no table is
  missing, since otherwise `pt_for` panics for the table.
- `Stocked.loop`: a loop that maps pages one after the other stops as the account `pagesStop` says.
- `pagesStop_none`, `pagesStop_wild`: the pages are all mapped if they are different and there are enough; page 0 is
  mapped if memory runs out right before a page whose tables are all there.
-/
import Uix.Memory.Filling

namespace Uix

open Machine Radix Radix.Format List Function
open Pmm (pageIdx pageAddr Takes)

namespace Kern

section Tables

variable {k : Kern} {is : List (Fin 512)}

/-- `k'` is `k` with the entry `e` at `va`, and the tables that were missing on the way -/
structure Entered (r : ℕ) (is : List (Fin 512)) (va e : U64) (k k' : Kern) : Prop where
  trees : Trees k' [r] is
  regs : SameRegs k k'
  takes : ∃ S, Takes k.pmm S k'.pmm
  pmm : k'.pmm = k.pmm.skip (paging.gap k.mem 3 r (idx va))
  left : k'.pmm.freeSet.card + paging.gap k.mem 3 r (idx va) = k.pmm.freeSet.card
  gaps : ∀ y : ℕ → Fin 512, y 3 ∈ is → paging.gap k'.mem 3 r y = min (paging.gap k.mem 3 r y) (split (idx va) y 3)
  hit : ∀ y : ℕ → Fin 512, (∀ j ≤ 3, y j = idx va j) → paging.walk k'.mem 3 r y = some (0, e)
  miss : ∀ y : ℕ → Fin 512, y 3 ∈ is → (∃ j ≤ 3, y j ≠ idx va j) → paging.walk k'.mem 3 r y = paging.walk k.mem 3 r y
  links : ∀ l ∈ paging.links k'.mem 3 r is, l ∈ paging.links k.mem 3 r is ∨ TableLink l
  sub : ∀ g ∈ paging.tables k'.mem 3 r is, g ∈ paging.tables k.mem 3 r is ∨ g ∈ k.pmm.freeSet

/-- **`vmm_map` at an address that is not mapped.** -/
theorem vmmMap_demand {va : U64} (pa : PAddr) {flags : U64} (T : Trees k [k.pml4] is) (his : is.Nodup)
    (hx : pml4Idx va ∈ is) (hf : has flags vmmPresent = true) (hnone : paging.walk k.mem 3 k.pml4 (idx va) = none) :
    Meets (k.vmmMap va pa flags)
      (fun e => e = .panic .vmmOomTables ∧ k.pmm.freeSet.card < paging.gap k.mem 3 k.pml4 (idx va))
      (Entered k.pml4 is va ((pa &&& pteMask) ||| flags) k) := by
  have hr := mem_singleton_self k.pml4
  have hx' : idx va 3 ∈ is := hx
  refine (vmmMap_absent pa flags T his hr hx hnone).mono (fun _ h => h) ?_
  rintro k' ⟨k1, S, g, D, habs, rfl⟩
  have hcard := D.card_eq
  obtain ⟨G, hat, -, hpmm, hgaps⟩ := D
  rw [hcard] at hpmm
  set e := (pa &&& pteMask) ||| flags with he
  have hpres : has e vmmPresent = true := by rw [he, has_or, hf, Bool.or_true]
  have P := patched_set e G.trees his hr hx' hat
  have H : Hole paging k1.mem (k1.set g (idx va 0) e).mem (idx va) is 3 k.pml4 0 g :=
    ⟨hat, hx', his, tree_of_forest G.trees.nodup hr, fun h _ j hj => by rw [set_mem, if_neg hj]⟩
  constructor
  case trees => exact G.trees.set P
  case regs => exact G.regs
  case takes => exact ⟨S, G.takes⟩
  case pmm => exact hpmm
  case left =>
    rw [← hcard]
    exact card_of_taken G.takes
  case gaps =>
    intro y hy
    rw [← max_eq_left (Nat.zero_le (split (idx va) y 3)), ← hgaps y hy]
    exact H.gap_leaf hy
  case hit =>
    intro y hy
    have := walk_set P hy
    rwa [if_pos hpres] at this
  case miss =>
    intro y hy hne
    rw [← G.walk _ hr y hy]
    exact P.miss _ hr y hy (.inr hne)
  case links =>
    intro l hl
    exact G.links _ hr l (P.links _ hr ▸ hl)
  case sub =>
    intro g' hg'
    have hg1 : g' ∈ paging.forest k1.mem 3 [k.pml4] is := mem_forest.2 ⟨_, hr, P.tables _ hr ▸ hg'⟩
    rcases G.sub g' hg1 with hg | hg
    · obtain ⟨r', hr', hg⟩ := mem_forest.1 hg
      exact .inl (mem_singleton.1 hr' ▸ hg)
    · exact .inr (G.takes.sub hg)

end Tables

/-! ## The pages of a space -/

/-- what a space is like before pages are mapped in it: the tables missing on the way to an address, and the addresses
that are mapped already -/
structure Base where
  gap : U64 → ℕ
  taken : U64 → Prop

/-- the user half of a new space -/
def Base.fresh : Base := ⟨fun _ => 3, fun _ => False⟩

/-- the bits of an address that its four indices read -/
def vpage (a : U64) : ℕ := a.toNat / pageSize % 2 ^ 36

theorem vpage_eq_iff {a b : U64} : vpage a = vpage b ↔ ∀ j ≤ 3, idx a j = idx b j := (indices_eq_iff a b).symm

theorem vpage_user {a : U64} (h : a.toNat < 2 ^ 47) : vpage a = a.toNat / pageSize := by
  rw [vpage, pageSize]
  omega

/-- `a` lies in one of the pages at `vas` -/
def Covered (vas : List U64) (a : U64) : Prop := ∃ va ∈ vas, vpage a = vpage va

instance (vas : List U64) (a : U64) : Decidable (Covered vas a) := inferInstanceAs (Decidable (∃ va ∈ vas, _))

/-- the tables missing on the way to `a` once the pages `vas` are mapped -/
def missing (B : Base) (vas : List U64) (a : U64) : ℕ :=
  vas.foldr (fun va n => min n (split (idx va) (idx a) 3)) (B.gap a)

/-- the pages taken for the pages `vas` and for their tables, latest first -/
def cost (B : Base) : List U64 → ℕ
  | [] => 0
  | va :: vas => cost B vas + missing B vas va + 1

/-- the page at `va` is the `n`-th that was handed out, and can be written -/
def Owns (is : List (Fin 512)) (k₀ k : Kern) (n : ℕ) (va : U64) : Prop :=
  ∃ e, paging.walk k.mem 3 k₀.pml4 (idx va) = some (0, e) ∧ has e writeBit = true ∧ frame e = k₀.pmm.nth n ∧
    frame e ∉ paging.tables k.mem 3 k₀.pml4 is ∧ frame e ∉ k.pmm.freeSet

/-- `k` is `k₀` with the pages `vas` in the active space, latest first, as far as the entries `is` of its PML4 go -/
structure Stocked (is : List (Fin 512)) (B : Base) (k₀ k : Kern) (vas : List U64) : Prop where
  trees : Trees k [k₀.pml4] is
  regs : SameRegs k₀ k
  pmm : k.pmm = k₀.pmm.skip (cost B vas)
  left : k.pmm.freeSet.card + cost B vas = k₀.pmm.freeSet.card
  mapped : ∀ a, idx a 3 ∈ is → (paging.walk k.mem 3 k₀.pml4 (idx a) ≠ none ↔ B.taken a ∨ Covered vas a)
  gaps : ∀ a, idx a 3 ∈ is → paging.gap k.mem 3 k₀.pml4 (idx a) = missing B vas a
  links : ∀ e ∈ paging.links k.mem 3 k₀.pml4 is, has e writeBit = true
  own : ∀ post va pre, vas = post ++ va :: pre → idx va 3 ∈ is ∧ Owns is k₀ k (cost B pre) va

section Stocked

variable {is : List (Fin 512)} {B : Base} {k₀ k k' : Kern} {vas : List U64} {va a flags : U64} {t n : ℕ} {p : Pmm}

theorem covered_cons : Covered (va :: vas) a ↔ vpage a = vpage va ∨ Covered vas a := exists_mem_cons_iff ..

/-- nothing is mapped in the user half of a new space, and no table is there -/
theorem FreshSpace.stocked (h : FreshSpace k) (hB : ∀ a, idx a 3 ∈ lowerHalf → B.gap a = 3 ∧ ¬ B.taken a) :
    Stocked lowerHalf B k k [] := by
  have habs : ∀ a : U64, idx a 3 ∈ lowerHalf → paging.present (k.mem k.pml4 (idx a 3)) = false := fun a ha => by
    rw [h.lower _ ha, paging_present, zero_has]
  refine ⟨h.filling.spaces.trees, ⟨rfl, rfl, rfl⟩, rfl, rfl, fun a ha => ?_, fun a ha => ?_, ?_, ?_⟩
  · rw [walk_absent (habs a ha)]
    refine iff_of_false (fun hc => hc rfl) ?_
    rintro (hc | ⟨va, hva, -⟩)
    · exact (hB a ha).2 hc
    · exact absurd hva not_mem_nil
  · rw [gap_stop (by rw [Format.link, habs a ha, Bool.false_and])]
    exact (hB a ha).1.symm
  · rw [(empty_space h.lower).2.2]
    exact fun e he => absurd he not_mem_nil
  · intro post va pre hc
    exact absurd hc.symm (append_ne_nil_of_right_ne_nil _ (cons_ne_nil _ _))

theorem Stocked.covered (h : Stocked is B k₀ k vas) (ha : Covered vas a) : idx a 3 ∈ is ∧ ∃ n, Owns is k₀ k n a := by
  obtain ⟨va, hva, hp⟩ := ha
  obtain ⟨post, pre, hvas⟩ := append_of_mem hva
  obtain ⟨hx, e, hw, hrest⟩ := h.own post va pre hvas
  have hidx := vpage_eq_iff.1 hp
  exact ⟨by rw [hidx 3 le_rfl]; exact hx, _, e, (walk_index hidx).trans hw, hrest⟩

theorem Stocked.active (h : Stocked is B k₀ k vas) : k.pml4 = k₀.pml4 := h.regs.1

theorem agree_aside {m : PhysMem} {r f : ℕ} (hf : f ∉ paging.tables m 3 r is) (row : Fin 512 → U64) :
    Agree paging m (update m f row) 3 r is := by
  refine .of_tables fun g hg => update_of_ne ?_ _ _
  rintro rfl
  exact hf hg

/-- a page that is no table, written -/
theorem Stocked.setPage {f : ℕ} (h : Stocked is B k₀ k vas) (hf : f ∉ paging.tables k.mem 3 k₀.pml4 is)
    (row : Fin 512 → U64) : Stocked is B k₀ { k with mem := update k.mem f row } vas := by
  have hA := agree_aside hf row
  refine ⟨h.trees.agree (fun r hr => mem_singleton.1 hr ▸ hA) (.refl h.trees.pmm), h.regs, h.pmm, h.left,
    fun a ha => ?_, fun a ha => ?_, ?_, fun post va pre hvas => ?_⟩
  · rw [hA.walk ha]
    exact h.mapped a ha
  · rw [hA.gap ha]
    exact h.gaps a ha
  · rw [hA.links]
    exact h.links
  · obtain ⟨hx, hown⟩ := h.own post va pre hvas
    rw [Owns, hA.walk hx, hA.tables]
    exact ⟨hx, hown⟩

/-- **A byte written in one of the pages.** -/
theorem Stocked.write (h : Stocked is B k₀ k vas) (hcr3 : frame k₀.cr3 = k₀.pml4) (ha : Covered vas a)
    (hc : Canonical a) (b : BitVec 8) : ∃ k', k.write false a b = .ok k' ∧ Stocked is B k₀ k' vas := by
  obtain ⟨hx, n, e, hw, hwr, -, hout, -⟩ := h.covered ha
  rw [← h.active] at hw
  have hstore := @store_kernel k b a e (by rw [h.active, h.regs.2.1, hcr3])
    (fun e he => h.links e (mem_flatMap.2 ⟨_, hx, h.active ▸ he⟩)) hw hwr
  refine ⟨k.putByte (frame e) (a.toNat % pageSize) b, ?_, h.setPage hout _⟩
  rw [Kern.write, if_neg (not_not.2 hc), hstore]
  rfl

/-- a page that was taken, with any contents, and is now mapped -/
theorem Stocked.attached (row : Fin 512 → U64) (h : Stocked is B k₀ k vas) (his : is.Nodup) (hx : idx va 3 ∈ is)
    (ht : t ∈ k.pmm.freeSet) (hT : Takes k.pmm {t} p) (halloc : k.pmm.pmmAlloc = .ok (pageAddr t, p))
    (hf : MapFlags flags) (hw : has flags writeBit = true) :
    Meets (({ k with mem := update k.mem t row }.setPmm p).vmmMap va (pageAddr t) flags)
      (fun e => (e = .panic .vmmRemap ∧ Covered vas va) ∨ B.taken va ∨
        (¬ Covered vas va ∧ e = .panic .vmmOomTables ∧ k₀.pmm.freeSet.card < cost B (va :: vas)))
      fun k' => ¬ B.taken va ∧ ¬ Covered vas va ∧ Stocked is B k₀ k' (va :: vas) := by
  have hleft := h.left
  have ht40 := Pmm.lt_of_free ht h.trees.phys
  have hfree : t ∉ p.freeSet := hT.draws.taken_notMem_free (Finset.mem_singleton_self t)
  have hsub : ∀ {g}, g ∈ p.freeSet → g ∈ k.pmm.freeSet := fun hg => by
    rw [hT.free] at hg
    exact (Finset.mem_sdiff.1 hg).1
  have hout : t ∉ paging.tables k.mem 3 k₀.pml4 is := fun hc =>
    h.trees.used t (mem_forest.2 ⟨_, mem_singleton_self _, hc⟩) ht
  have h1 := h.setPage hout row
  have hcard := @card_of_taken k ({ k with mem := update k.mem t row }.setPmm p) {t} hT
  rw [Finset.card_singleton] at hcard
  set k₁ := { k with mem := update k.mem t row }.setPmm p with hk₁
  change p.freeSet.card + 1 = _ at hcard
  have hroot : k₁.pml4 = k₀.pml4 := h.active
  have T₁ : Trees k₁ [k₁.pml4] is := by
    rw [hroot]
    exact h1.trees.agree (fun _ _ => .of_tables fun _ _ => rfl) hT.draws
  by_cases hbase : B.taken va
  · refine (vmmMap_spec (pageAddr t) flags T₁ his (mem_singleton_self _) hx).mono (fun _ _ => .inr (.inl hbase)) ?_
    rintro k' ⟨hnone, -⟩
    rw [hroot] at hnone
    exact absurd hnone ((h1.mapped va hx).2 (.inl hbase))
  by_cases hcov : Covered vas va
  · obtain ⟨-, n, e, he, -⟩ := h1.covered hcov
    rw [vmmMap_taken (pageAddr t) flags (show paging.walk k₁.mem 3 k₁.pml4 (idx va) = some (0, e) from hroot ▸ he)]
    exact meets_error (.inl ⟨if_pos rfl, hcov⟩)
  have hnone : paging.walk k₁.mem 3 k₁.pml4 (idx va) = none := by
    rw [hroot]
    by_contra hc
    exact ((h1.mapped va hx).1 hc).elim hbase hcov
  have hgap : paging.gap k₁.mem 3 k₁.pml4 (idx va) = missing B vas va := by
    rw [hroot]
    exact h1.gaps va hx
  refine (vmmMap_demand (pageAddr t) T₁ his hx hf.2 hnone).mono ?_ ?_
  · rintro e ⟨rfl, hlt⟩
    rw [hgap] at hlt
    change p.freeSet.card < _ at hlt
    refine .inr (.inr ⟨hcov, rfl, ?_⟩)
    rw [cost]
    omega
  intro k' E
  have hpmm := E.pmm
  have hcount := E.left
  rw [hgap] at hpmm hcount
  change k'.pmm.freeSet.card + _ = p.freeSet.card at hcount
  rw [hroot] at E
  obtain ⟨S, hS⟩ := E.takes
  have hused : ∀ {g}, g ∉ p.freeSet → g ∉ k'.pmm.freeSet := fun hg hc => by
    rw [hS.free] at hc
    exact hg (Finset.mem_sdiff.1 hc).1
  have hother : ∀ {a : U64}, vpage a ≠ vpage va → ∃ j ≤ 3, idx a j ≠ idx va j := fun hne => by
    by_contra hc
    push Not at hc
    exact hne (vpage_eq_iff.2 hc)
  rw [h.pmm] at halloc
  refine ⟨hbase, hcov, ?_⟩
  constructor
  case trees => exact E.trees
  case regs => exact h.regs.trans E.regs
  case pmm =>
    rw [cost, show cost B vas + missing B vas va + 1 = cost B vas + 1 + missing B vas va by omega, Pmm.skip_add,
      Pmm.skip_succ halloc (ht40.trans (by decide))]
    exact hpmm
  case left =>
    rw [cost]
    omega
  case mapped =>
    intro a ha
    rw [covered_cons]
    by_cases hp : vpage a = vpage va
    · rw [E.hit _ (vpage_eq_iff.1 hp)]
      exact iff_of_true (Option.some_ne_none _) (.inr (.inl hp))
    · rw [E.miss _ ha (hother hp), or_iff_right hp]
      exact h1.mapped a ha
  case gaps =>
    intro a ha
    rw [E.gaps _ ha]
    exact congrArg (min · _) (h1.gaps a ha)
  case links =>
    intro e he
    exact (E.links e he).elim (h1.links e) fun hl => hl.1
  case own =>
    intro post va' pre hvas
    cases post with
    | nil =>
      obtain ⟨rfl, rfl⟩ := cons.inj hvas
      refine ⟨hx, pageEntry t flags, E.hit _ fun _ _ => rfl, pageEntry_has t hw, ?_⟩
      rw [frame_pageEntry ht40 hf]
      refine ⟨(Pmm.nth_eq halloc (ht40.trans (by decide))).symm, fun hc => ?_, hused hfree⟩
      rcases E.sub t hc with hc | hc
      · exact hout ((agree_aside hout row).tables ▸ hc)
      · exact hfree hc
    | cons b post =>
      obtain ⟨rfl, rfl⟩ := cons.inj hvas
      obtain ⟨hx', e, he, hwr, hnth, htab, hus⟩ := h1.own post va' pre rfl
      have hne : vpage va' ≠ vpage va := fun hc => hcov ⟨va', mem_append_right _ mem_cons_self, hc.symm⟩
      refine ⟨hx', e, (E.miss _ hx' (hother hne)).trans he, hwr, hnth, fun hc => ?_, hused fun hc => hus (hsub hc)⟩
      rcases E.sub _ hc with hc | hc
      · exact htab hc
      · exact hus (hsub hc)

end Stocked

/-! ## Memory running out -/

/-- how a page that cannot be taken with all its tables makes `mapPage` stop: with page 0 in the entry, if no table is
missing -/
def shortStop (free gap : ℕ) : Stop := if free = 0 ∧ gap = 0 then .wild else .panic .vmmOomTables

/-- what happens to a page to be mapped after the pages `done`, with `free` pages free at the start: `none` if it is
mapped -/
def pageStop (B : Base) (free : ℕ) (done : List U64) (va : U64) : Option Stop :=
  if Covered done va then some (.panic .vmmRemap)
  else if free < cost B done + missing B done va + 1 then some (shortStop (free - cost B done) (missing B done va))
  else none

/-- what happens to the pages `todo`, mapped one after the other -/
def pagesStop (B : Base) (free : ℕ) : List U64 → List U64 → Option Stop
  | _, [] => none
  | done, va :: todo => (pageStop B free done va).or (pagesStop B free (va :: done) todo)

/-- the pages `todo` are different, and none of them is there already -/
def Apart (done todo : List U64) : Prop := (todo.Pairwise fun a b => vpage a ≠ vpage b) ∧ ∀ a ∈ todo, ¬ Covered done a

/-- **Where page 0 is mapped**: memory runs out right before a page whose tables are all there -/
def Starves (free : ℕ) (done todo : List U64) : Prop :=
  ∃ pre va post, todo = pre ++ va :: post ∧ Apart done (pre ++ [va]) ∧
  missing .fresh (pre.reverse ++ done) va = 0 ∧ free = cost .fresh (pre.reverse ++ done)

section Account

variable {B : Base} {free : ℕ} {done todo l m : List U64} {va : U64}

theorem cost_nil_le (free : ℕ) : cost B [] ≤ free := Nat.zero_le free

theorem cost_le_append (l done : List U64) : cost B done ≤ cost B (l ++ done) := by
  induction l with
  | nil => exact le_rfl
  | cons va l ih =>
    rw [cons_append, cost]
    omega

theorem missing_le (vas : List U64) (a : U64) : missing B vas a ≤ B.gap a := by
  induction vas with
  | nil => exact le_rfl
  | cons va vas ih => exact (min_le_left _ _).trans ih

theorem cost_le (vas : List U64) : cost .fresh vas ≤ 4 * vas.length := by
  induction vas with
  | nil => exact le_rfl
  | cons va vas ih =>
    have : missing .fresh vas va ≤ 3 := missing_le vas va
    rw [cost, length_cons]
    omega

/-- a new space asks for the most tables -/
theorem cost_le_fresh (hB : ∀ a, B.gap a ≤ 3) (vas : List U64) : cost B vas ≤ cost .fresh vas := by
  have hmissing : ∀ (vas : List U64) (a : U64), missing B vas a ≤ missing .fresh vas a := fun vas a => by
    induction vas with
    | nil => exact hB a
    | cons va vas ih => exact min_le_min_right _ ih
  induction vas with
  | nil => exact le_rfl
  | cons va vas ih =>
    have := hmissing vas va
    rw [cost, cost]
    omega

/-- four pages for each page are enough -/
theorem Starves.bound (h : Starves free [] todo) : free < 4 * todo.length := by
  obtain ⟨pre, va, post, rfl, -, -, rfl⟩ := h
  have := cost_le (pre.reverse ++ [])
  rw [append_nil, length_reverse] at this
  rw [append_nil, length_append, length_cons]
  omega

theorem apart_cons : Apart done (va :: todo) ↔ ¬ Covered done va ∧ Apart (va :: done) todo := by
  simp only [Apart, pairwise_cons, forall_mem_cons, Covered, exists_mem_cons_iff, not_or]
  constructor
  · rintro ⟨⟨h1, h2⟩, h3, h4⟩
    exact ⟨h3, h2, fun a ha => ⟨fun hc => h1 a ha hc.symm, h4 a ha⟩⟩
  · rintro ⟨h3, h2, h4⟩
    exact ⟨⟨fun a ha hc => (h4 a ha).1 hc.symm, h2⟩, h3, fun a ha => (h4 a ha).2⟩

theorem pageStop_none : pageStop B free done va = none ↔ ¬ Covered done va ∧ cost B (va :: done) ≤ free := by
  rw [pageStop, cost]
  split_ifs with h1 h2
  · exact iff_of_false not_false fun hc => hc.1 h1
  · exact iff_of_false not_false fun hc => absurd hc.2 (Nat.not_le.2 h2)
  · exact iff_of_true rfl ⟨h1, Nat.le_of_not_lt h2⟩

theorem pageStop_wild : pageStop B free done va = some .wild ↔
    ¬ Covered done va ∧ missing B done va = 0 ∧ free ≤ cost B done := by
  rw [pageStop]
  split_ifs with h1 h2
  · exact iff_of_false (fun hc => by cases hc) fun hc => hc.1 h1
  · rw [and_iff_right h1, Option.some.injEq, shortStop]
    split_ifs with h3
    · exact iff_of_true rfl (by omega)
    · exact iff_of_false (fun hc => by cases hc) (by omega)
  · exact iff_of_false (fun hc => by cases hc) (by omega)

theorem pagesStop_append : pagesStop B free done (l ++ m) =
    (pagesStop B free done l).or (pagesStop B free (l.reverse ++ done) m) := by
  induction l generalizing done with
  | nil => rfl
  | cons va l ih =>
    rw [cons_append, pagesStop, pagesStop, ih, reverse_cons, append_assoc, singleton_append,
      Option.or_assoc]

theorem pagesStop_none (h : cost B done ≤ free) :
    pagesStop B free done todo = none ↔ Apart done todo ∧ cost B (todo.reverse ++ done) ≤ free := by
  induction todo generalizing done with
  | nil => exact iff_of_true rfl ⟨⟨.nil, fun a ha => absurd ha not_mem_nil⟩, h⟩
  | cons va todo ih =>
    have hle := cost_le_append (B := B) todo.reverse (va :: done)
    rw [pagesStop, Option.or_eq_none_iff, pageStop_none, apart_cons, reverse_cons, append_assoc,
      singleton_append]
    constructor
    · rintro ⟨⟨h1, h2⟩, h3⟩
      exact ⟨⟨h1, ((ih h2).1 h3).1⟩, ((ih h2).1 h3).2⟩
    · rintro ⟨⟨h1, h2⟩, h3⟩
      exact ⟨⟨h1, hle.trans h3⟩, (ih (hle.trans h3)).2 ⟨h2, h3⟩⟩

/-- **The account says when page 0 is mapped.** -/
theorem pagesStop_wild (h : cost .fresh done ≤ free) :
    pagesStop .fresh free done todo = some .wild ↔ Starves free done todo := by
  induction todo generalizing done with
  | nil =>
    refine iff_of_false (fun hc => by cases hc) ?_
    rintro ⟨pre, va, post, hl, -⟩
    exact absurd hl (by simp)
  | cons a todo ih =>
    rw [pagesStop, Option.or_eq_some_iff, pageStop_wild, pageStop_none]
    constructor
    · rintro (⟨h1, h2, h3⟩ | ⟨⟨h1, h2⟩, h3⟩)
      · refine ⟨[], a, todo, rfl, apart_cons.2 ⟨h1, .nil, fun _ hb => absurd hb not_mem_nil⟩, h2, ?_⟩
        exact le_antisymm h3 h
      · obtain ⟨pre, va, post, rfl, h4, h5, h6⟩ := (ih h2).1 h3
        refine ⟨a :: pre, va, post, rfl, apart_cons.2 ⟨h1, h4⟩, ?_, ?_⟩
        · rwa [reverse_cons, append_assoc]
        · rwa [reverse_cons, append_assoc]
    · rintro ⟨pre, va, post, hl, h4, h5, h6⟩
      cases pre with
      | nil =>
        obtain ⟨rfl, -⟩ := cons.inj hl
        exact .inl ⟨(apart_cons.1 h4).1, h5, h6.le⟩
      | cons b pre =>
        obtain ⟨rfl, rfl⟩ := cons.inj hl
        rw [reverse_cons, append_assoc, singleton_append] at h5 h6
        obtain ⟨h7, h8⟩ := apart_cons.1 h4
        have hle : cost .fresh (a :: done) ≤ free := h6 ▸ cost_le_append pre.reverse (a :: done)
        exact .inr ⟨⟨h7, hle⟩, (ih hle).2 ⟨pre, va, post, rfl, h8, h5, h6⟩⟩

end Account

/-- `x` stops with what `o` says, or returns something of which `Q` holds -/
structure Predicted {α : Type} (o : Option Stop) (x : Except Stop α) (Q : α → Prop) : Prop where
  stop : ∀ st, o = some st → x = .error st
  ok : o = none → ∃ a, x = .ok a ∧ Q a

section Predicted

variable {α β : Type} {o o' : Option Stop} {x : Except Stop α} {Q : α → Prop}

theorem Predicted.of_meets (h : Meets x (fun e => o = some e) fun a => o = none ∧ Q a) : Predicted o x Q := by
  cases x with
  | error e =>
    have ho := h.stop rfl
    exact ⟨fun st hst => congrArg _ (Option.some.inj (ho.symm.trans hst)),
      fun hc => absurd (ho.symm.trans hc) (by simp)⟩
  | ok a =>
    obtain ⟨ho, hQ⟩ := h.of_eq rfl
    exact ⟨fun st hst => absurd (ho.symm.trans hst) (by simp), fun _ => ⟨a, rfl, hQ⟩⟩

theorem Predicted.error_iff (h : Predicted o x Q) (st : Stop) : x = .error st ↔ o = some st := by
  refine ⟨fun hx => ?_, h.stop st⟩
  cases o with
  | none =>
    obtain ⟨a, hrun, -⟩ := h.ok rfl
    rw [hrun] at hx
    cases hx
  | some st' =>
    rw [h.stop st' rfl, Except.error.injEq] at hx
    rw [hx]

theorem Predicted.of_ok {a : α} (h : Predicted o x Q) (hx : x = .ok a) : Q a := by
  cases o with
  | none =>
    obtain ⟨b, hb, hQ⟩ := h.ok rfl
    exact Except.ok.inj (hb.symm.trans hx) ▸ hQ
  | some st => exact absurd (hx.symm.trans (h.stop st rfl)) (by simp)

theorem Predicted.ok_iff (h : Predicted o x Q) : (∃ a, x = .ok a) ↔ o = none := by
  cases o with
  | none =>
    obtain ⟨a, hrun, -⟩ := h.ok rfl
    exact iff_of_true ⟨a, hrun⟩ rfl
  | some st =>
    rw [h.stop st rfl]
    refine iff_of_false ?_ (Option.some_ne_none st)
    rintro ⟨a, hrun⟩
    cases hrun

/-- **Sequencing.** -/
theorem Predicted.bind {f : α → Except Stop β} {Q' : β → Prop} (h : Predicted o x Q)
    (hf : ∀ a, Q a → Predicted o' (f a) Q') : Predicted (o.or o') (x >>= f) Q' := by
  cases o with
  | some st =>
    rw [h.stop st rfl, Option.some_or]
    exact ⟨fun st' hst' => Option.some.inj hst' ▸ rfl, fun hc => absurd hc (Option.some_ne_none st)⟩
  | none =>
    obtain ⟨a, hrun, hQ⟩ := h.ok rfl
    rw [hrun, ok_bind, Option.none_or]
    exact hf a hQ

/-- what follows does not stop -/
theorem Predicted.then {f : α → Except Stop β} {Q' : β → Prop} (h : Predicted o x Q)
    (hf : ∀ a, Q a → ∃ b, f a = .ok b ∧ Q' b) : Predicted o (x >>= f) Q' := by
  have hnone : ∀ a, Q a → Predicted none (f a) Q' := fun a ha => ⟨fun st hc => absurd hc (by simp), fun _ => hf a ha⟩
  have hbind := h.bind hnone
  rwa [Option.or_none] at hbind

end Predicted

section Outcome

variable {is : List (Fin 512)} {B : Base} {k₀ k : Kern} {done : List U64} {va flags : U64}

/-- **A page as it is.** -/
theorem Stocked.mapPage (h : Stocked is B k₀ k done) (his : is.Nodup) (hx : idx va 3 ∈ is) (hbase : ¬ B.taken va)
    (hf : MapFlags flags) (hw : has flags writeBit = true) :
    Predicted (pageStop B k₀.pmm.freeSet.card done va) (k.mapPage va flags) fun r =>
    Stocked is B k₀ r.2 (va :: done) := by
  have hleft := h.left
  refine .of_meets (meets_alloc_eq h.trees.pmm (fun hempty => ?_) fun t p ht h0 hT halloc => ?_)
  · rw [hempty, Finset.card_empty] at hleft
    by_cases hcov : Covered done va
    · obtain ⟨-, n, e, he, -⟩ := h.covered hcov
      simp only
      rw [vmmMap_taken (q := (0, e)) 0 flags (h.active ▸ he), pageStop, if_pos hcov]
      exact meets_error rfl
    have hnone : paging.walk k.mem 3 k.pml4 (idx va) = none := by
      rw [h.active]
      by_contra hc
      exact ((h.mapped va hx).1 hc).elim hbase hcov
    have hgap : paging.gap k.mem 3 k.pml4 (idx va) = missing B done va := by
      rw [h.active]
      exact h.gaps va hx
    have hstop : pageStop B k₀.pmm.freeSet.card done va = some (shortStop 0 (missing B done va)) := by
      rw [pageStop, if_neg hcov, if_pos (by omega), show k₀.pmm.freeSet.card - cost B done = 0 by omega]
    rw [hstop, shortStop]
    refine ((vmmMap_demand 0 (h.active ▸ h.trees) his hx hf.2 hnone).mono ?_ fun _ h => h).bind ?_
    · rintro e ⟨rfl, hlt⟩
      rw [if_neg (by omega)]
    · intro k' E
      have hzero := E.left
      rw [hempty, Finset.card_empty, hgap] at hzero
      rw [if_pos rfl, if_pos (by omega)]
      exact meets_error rfl
  · have hmap := h.attached (k.mem t) his hx ht hT halloc hf hw
    rw [update_eq_self] at hmap
    refine (hmap.mono ?_ fun _ h => h).bind ?_
    · have hpos := Finset.card_pos.2 ⟨t, ht⟩
      rintro e (⟨rfl, hcov⟩ | hc | ⟨hcov, rfl, hlt⟩)
      · rw [pageStop, if_pos hcov]
      · exact absurd hc hbase
      · rw [cost] at hlt
        rw [pageStop, if_neg hcov, if_pos hlt, shortStop, if_neg (by omega)]
    · rintro k' ⟨-, hcov, h'⟩
      have hle := h'.left
      rw [cost] at hle
      simp only [if_neg h0]
      refine meets_ok ⟨?_, h'⟩
      rw [pageStop, if_neg hcov, if_neg (by omega)]

/-- **A loop over pages stops as the account says.** -/
theorem Stocked.loop {α : Type} {body : Kern → α → Except Stop Kern} {addr : α → U64} {todo : List α}
    (h : Stocked is B k₀ k done)
    (hbody : ∀ a ∈ todo, ∀ done k, Stocked is B k₀ k done → Predicted (pageStop B k₀.pmm.freeSet.card done (addr a))
      (body k a) fun k' => Stocked is B k₀ k' (addr a :: done)) :
    Predicted (pagesStop B k₀.pmm.freeSet.card done (todo.map addr)) (todo.foldlM body k)
      fun k' => Stocked is B k₀ k' ((todo.map addr).reverse ++ done) := by
  generalize k₀.pmm.freeSet.card = free at hbody ⊢
  induction todo generalizing k done with
  | nil => exact ⟨fun _ hst => absurd hst (by simp [pagesStop]), fun _ => ⟨k, rfl, h⟩⟩
  | cons a todo ih =>
    rw [map_cons, pagesStop, foldlM_cons, reverse_cons, append_assoc, singleton_append]
    refine (hbody a mem_cons_self done k h).bind fun k' h' => ?_
    exact ih h' fun b hb => hbody b (mem_cons_of_mem a hb)

end Outcome

end Kern

end Uix
