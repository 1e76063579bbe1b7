/-
Pages that cannot be executed, through the two copies of page tables that the kernel makes.

A page cannot be executed if `VMM_NOEXEC` is set in its entry or in any entry on the way to it. `clone_table` and
`fork_table` build the entries on the way anew from the low 12 bits of the old ones. `fork_table` keeps the low 32 bits
of the entry of a user page, so the bit is lost there as well, in the child and in the parent.

- `mmuWalk_exec`: below tables that can be executed through, the leaf alone decides.
- `noexec_kept_iff`: which pages stay non-executable.
-/
import Uix.Memory.VmmClone

namespace Uix

open Machine Radix Radix.Format List
open Pmm (pageIdx pageAddr)

/-- the walk at `va` finds a page that cannot be executed -/
def NoExec (m : PhysMem) (root : ℕ) (va : U64) : Prop := ∃ t ∈ mmuWalk m 3 root (idx va), t.noexec = true

/-- a leaf that cannot be executed stays so on the way up -/
theorem mmuWalk_noexec {m : PhysMem} {l f : ℕ} {x : ℕ → Fin 512} {t : Leaf} (h : mmuWalk m l f x = some t) :
    has t.entry vmmNoexec = true → t.noexec = true := by
  refine mmuWalk_induct (P := fun t => has t.entry vmmNoexec = true → t.noexec = true) (fun _ _ _ => id) ?_ h
  intro e _ t ht he
  simp only [Leaf.through, ht he, Bool.true_or]

/-- **Below tables that can be executed through, the leaf decides.** -/
theorem mmuWalk_exec {m : PhysMem} {l f : ℕ} {x : ℕ → Fin 512} {t : Leaf}
    (hl : ∀ e ∈ paging.linksAt m l f (x l), has e vmmNoexec = false) (h : mmuWalk m l f x = some t) :
    t.noexec = has t.entry vmmNoexec := by
  refine mmuWalk_induct (P := fun t => t.noexec = has t.entry vmmNoexec) (fun _ _ _ => rfl) ?_ h
  intro e he t ht
  simp only [Leaf.through, ht, hl e he, Bool.or_false]

/-- the walk of the processor to the leaf that `vmm.c` finds -/
theorem exists_mmuWalk {m : PhysMem} {r : ℕ} {x : ℕ → Fin 512} {l : ℕ} {e : U64}
    (h : paging.walk m 3 r x = some (l, e)) : ∃ t, mmuWalk m 3 r x = some t ∧ t.level = l ∧ t.entry = e := by
  rw [← mmuWalk_walk, Option.map_eq_some_iff] at h
  obtain ⟨t, ht, hte⟩ := h
  rw [Prod.mk.injEq] at hte
  exact ⟨t, ht, hte⟩

/-- a user page loses the bit in a fork -/
theorem noexec_marked (e : U64) : has (marked e) vmmNoexec = (has e vmmNoexec && !has e vmmUser) := by
  unfold marked
  split_ifs with hu
  · rw [cow, has_or, stripWrite, has_and, show ((~~~ vmmWrite).setWidth 64 &&& vmmNoexec) = 0#64 by decide, hu]
    rw [show has cowMark vmmNoexec = false by decide, Bool.or_false, Bool.not_true, Bool.and_false]
    exact has_zero e
  · rw [Bool.eq_false_iff.2 hu, Bool.not_false, Bool.and_true]

namespace Kern

/-- the copy of a hierarchy keeps the bits of its leaves and no others -/
theorem TableCloned.noExec_iff {k k' : Kern} {r d : ℕ} {S : Finset ℕ} (C : TableCloned 3 r k k' d S) (va : U64) :
    NoExec k'.mem d va ↔ ∃ t ∈ mmuWalk k.mem 3 r (idx va), has t.entry vmmNoexec = true := by
  have hgrant := C.walk (idx va)
  have hexec : ∀ t ∈ mmuWalk k'.mem 3 d (idx va), t.noexec = has t.entry vmmNoexec := fun t ht =>
    mmuWalk_exec (fun e he => C.exec e (mem_flatMap.2 ⟨_, mem_finRange _, he⟩)) ht
  unfold NoExec
  cases hc : mmuWalk k'.mem 3 d (idx va) with
  | none =>
    rw [hc, Option.map_none, eq_comm, Option.map_eq_none_iff] at hgrant
    simp [hgrant]
  | some t =>
    rw [hc, Option.map_some, eq_comm, Option.map_eq_some_iff] at hgrant
    obtain ⟨t', ht', hg⟩ := hgrant
    have he : t'.entry = t.entry := congrArg (fun g => g.2.1) hg
    simp [ht', he, hexec t hc]

/-- both spaces keep the bit of a page exactly if it is not a user page -/
theorem SpaceForked.noExec_iff {k k' : Kern} {d : ℕ} {S : Finset ℕ} (F : SpaceForked k k' d S) {va : UserAddr} {e : U64}
    (hw : paging.walk k.mem 3 k.pml4 (idx va.1) = some (0, e)) (he : has e vmmNoexec = true) :
    NoExec k'.mem k.pml4 va.1 ∧ NoExec k'.mem d va.1 ↔ has e vmmUser = false := by
  have hwalk : ∀ r, r = k.pml4 ∨ r = d → paging.walk k'.mem 3 r (idx va.1) = some (0, marked e) := fun r hr => by
    rw [F.walk_eq hr va.lower, hw]
    rfl
  have hbit : has (marked e) vmmNoexec = !has e vmmUser := by rw [noexec_marked, he, Bool.true_and]
  obtain ⟨t, ht, -, hte⟩ := exists_mmuWalk (hwalk _ (.inl rfl))
  obtain ⟨t', ht', -, hte'⟩ := exists_mmuWalk (hwalk _ (.inr rfl))
  have hexec : t'.noexec = !has e vmmUser := by
    rw [mmuWalk_exec (fun a ha => F.exec a (mem_flatMap.2 ⟨_, va.lower, ha⟩)) ht', hte', hbit]
  constructor
  · rintro ⟨-, t₁, ht₁, hn⟩
    obtain rfl := Option.some.inj (ht'.symm.trans ht₁)
    simpa [hexec] using hn
  · intro hu
    rw [hu, Bool.not_false] at hbit hexec
    exact ⟨⟨t, ht, mmuWalk_noexec ht (hte ▸ hbit)⟩, t', ht', hexec⟩

/-- **Which pages stay non-executable.** The copy of a hierarchy by `clone_table` keeps a page non-executable exactly if
the bit stands in the page's own entry. After `vmm_fork_user_space` a page mapped with `VMM_NOEXEC` is non-executable in
both spaces exactly if it was mapped without `VMM_USER`. -/
theorem noexec_kept_iff (k : Kern) (pa : PAddr) (k' : Kern) :
    (k.pmm.Ok → k.pmm.bitmapLen ≤ 2 ^ 40 → ValidTop k →
      (∀ g ∈ paging.tables k.mem 3 (frame k.cr3) (List.finRange 512), g ∉ k.pmm.freeSet) →
      cloneTable 3 k.cr3 k = .ok (pa, k') → ∀ va, NoExec k.mem (frame k.cr3) va →
        (NoExec k'.mem (pageIdx pa) va ↔
          ∃ t ∈ mmuWalk k.mem 3 (frame k.cr3) (idx va), has t.entry vmmNoexec = true)) ∧
    (SpacePre k → k.vmmForkUserSpace = .ok (pa, k') → ∀ (va : UserAddr) (e : U64),
      paging.walk k.mem 3 k.pml4 (idx va.1) = some (0, e) → has e vmmNoexec = true →
        (NoExec k'.mem k.pml4 va.1 ∧ NoExec k'.mem (pageIdx pa) va.1 ↔ has e vmmUser = false)) := by
  constructor
  · intro hk hphys hvalid hused hrun va _
    obtain ⟨d, S, hpa, hd, C⟩ := (cloneTop_spec hk hphys hvalid hused).of_eq hrun
    simp only at hpa C
    rw [hpa, Pmm.pageIdx_pageAddr (by omega)]
    exact C.noExec_iff va
  · intro P hrun va e hw he
    obtain ⟨d, S, hpa, hd, F⟩ := (vmmFork_spec P).of_eq hrun
    simp only at hpa F
    rw [hpa, Pmm.pageIdx_pageAddr (lt_of_lt_of_le (Pmm.mem_freeSet.1 hd).1 P.pmm.small)]
    exact F.noExec_iff hw he

/-- the tables of `onePage` can be executed through -/
theorem onePage_exec (e : U64) : ∀ a ∈ paging.links (onePage e).mem 3 1 lowerHalf, has a vmmNoexec = false := by
  have hlinks : paging.links (onePage e).mem 3 1 lowerHalf = [2, 3, 4].map fun t => pageAddr t ||| tableFlags := by
    refine (single_gather zero_mem_lowerHalf lowerHalf_nodup).trans ?_
    rw [ite_self]
    rfl
  intro a ha
  rw [hlinks] at ha
  obtain ⟨t, ht, rfl⟩ := mem_map.1 ha
  have ht40 : t < 2 ^ 40 := by
    simp only [mem_cons, not_mem_nil, or_false] at ht
    omega
  rw [has_or, has_pageAddr ht40 (by decide), Bool.false_or]
  decide

/-- the space of one page as fork takes it -/
theorem onePage_spacePre {e : U64} (hp : has e vmmPresent = true) : SpacePre (onePage e) := by
  refine (onePage_trees e).spacePre fun p h => ?_
  rw [show (onePage e).pml4 = 1 from rfl, onePage_leaves hp, mem_singleton] at h
  rw [h]

theorem onePage_forks {e : U64} (hp : has e vmmPresent = true) :
    ∃ pa k', (onePage e).vmmForkUserSpace = .ok (pa, k') := by
  obtain ⟨⟨pa, k'⟩, hrun, -⟩ := (vmmFork_spec (onePage_spacePre hp)).exists_ok fun st hst => by
    have hroom := onePage_room e
    rcases hst.2 with h | h
    · exact absurd h (by simp [onePage, Pmm.fresh])
    · exact absurd h (Nat.not_lt.2 hroom)
  exact ⟨pa, k', hrun⟩

/-- **A user page mapped with `VMM_NOEXEC` can be executed after a fork**, by the child and by the parent. -/
theorem fork_makes_executable : ∃ pa k', (onePage 0x8000000000005007#64).vmmForkUserSpace = .ok (pa, k') ∧
    NoExec (onePage 0x8000000000005007#64).mem 1 0x400000#64 ∧
    ¬ NoExec k'.mem 1 0x400000#64 ∧ ¬ NoExec k'.mem (pageIdx pa) 0x400000#64 := by
  have hp : has 0x8000000000005007#64 vmmPresent = true := by decide
  obtain ⟨pa, k', hrun⟩ := onePage_forks hp
  obtain ⟨d, S, hpa, hd, F⟩ := (vmmFork_spec (onePage_spacePre hp)).of_eq hrun
  simp only at hpa F
  have hd52 : d < 2 ^ 52 := lt_of_lt_of_le (Pmm.mem_freeSet.1 hd).1 (onePage_spacePre hp).pmm.small
  have hlow : idx 0x400000#64 3 ∈ lowerHalf := mem_lowerHalf.2 (by decide)
  have hwalk : ∀ r, r = 1 ∨ r = d → paging.walk k'.mem 3 r (idx 0x400000#64) = some (0, marked 0x8000000000005007#64) :=
    fun r hr => by
      rw [F.walk_eq hr hlow, show (onePage 0x8000000000005007#64).pml4 = 1 from rfl, onePage_walk hp]
      rfl
  have hbit : has (marked 0x8000000000005007#64) vmmNoexec = false := by decide
  -- below tables that can be executed through, what is left of the leaf decides
  have hexec : ∀ r, r = 1 ∨ r = d → (∀ a ∈ paging.links k'.mem 3 r lowerHalf, has a vmmNoexec = false) →
      ¬ NoExec k'.mem r 0x400000#64 := by
    rintro r hr hl ⟨t, ht, hn⟩
    obtain ⟨t', ht', -, hte⟩ := exists_mmuWalk (hwalk r hr)
    obtain rfl := Option.some.inj (ht'.symm.trans ht)
    rw [mmuWalk_exec (fun a ha => hl a (List.mem_flatMap.2 ⟨_, hlow, ha⟩)) ht', hte, hbit] at hn
    exact absurd hn (by decide)
  refine ⟨pa, k', hrun, ?_, hexec 1 (.inl rfl) fun a ha => ?_, ?_⟩
  · obtain ⟨t, ht, -, hte⟩ := exists_mmuWalk (onePage_walk hp)
    exact ⟨t, ht, mmuWalk_noexec ht (by rw [hte]; decide)⟩
  · obtain ⟨i, hi, ha⟩ := List.mem_flatMap.1 ha
    have hold := (F.old i hi).linksAt_eq
    rw [show (onePage 0x8000000000005007#64).pml4 = 1 from rfl] at hold
    rw [hold] at ha
    exact onePage_exec _ a (List.mem_flatMap.2 ⟨i, hi, ha⟩)
  · rw [hpa, Pmm.pageIdx_pageAddr hd52]
    exact hexec d (.inr rfl) F.exec

/-- a page mapped with `VMM_NOEXEC` and without `VMM_USER` -/
theorem noexec_kept_page : ∃ pa k', (onePage 0x8000000000005003#64).vmmForkUserSpace = .ok (pa, k') ∧
    NoExec k'.mem 1 0x400000#64 ∧ NoExec k'.mem (pageIdx pa) 0x400000#64 := by
  have hp : has 0x8000000000005003#64 vmmPresent = true := by decide
  obtain ⟨pa, k', hrun⟩ := onePage_forks hp
  have hkept := (noexec_kept_iff _ pa k').2 (onePage_spacePre hp) hrun ⟨0x400000#64, by decide⟩ _ (onePage_walk hp)
    (by decide)
  exact ⟨pa, k', hrun, hkept.2 (by decide)⟩

end Kern

end Uix
