/-
What the teardown in `do_execve` gives back. It walks the tables of the user half and gives each of them to `pmm_free`,
each page they map to `pmm_unref`, and last the PML4. Memory does not change: the tables are read after pages were given
back, but before any of these is taken again.

- `drops`: what is given back below an entry, in order; `freeUserTables_eq` turns the recursion into one loop over it.
- `dropAll_spec`: different used pages can all be given back.
- `teardown_spec`: all tables of the space are free, and so are the pages whose count was at most 1 (`Freed`).
- `Spaces.torn`: the other spaces are in order if no page of theirs was given back.
-/
import Uix.Cpu.Exec
import Uix.Memory.Spaces

namespace Uix.Kern

open Machine Radix Radix.Format List Function
open Pmm (pageIdx pageAddr Gives Drops)

/-! ## One loop -/

/-- a page to be given back -/
inductive Item where
  | table (pa : PAddr)
  | page (pa : PAddr)

def Item.idx : Item → ℕ
  | .table pa => pageIdx pa
  | .page pa => pageIdx pa

def drop (k : Kern) : Item → Except Stop Kern
  | .table pa => k.pmmFree pa
  | .page pa => k.pmmUnref pa

/-- what `free_user_tables` gives back below an entry -/
def drops (m : PhysMem) : ℕ → ℕ → Fin 512 → List Item
  | 0, f, i => if has (m f i) vmmPresent then [.page (m f i &&& pteMask)] else []
  | l + 1, f, i =>
    if has (m f i) vmmPresent then
      (List.finRange 512).flatMap (drops m l (frame (m f i))) ++ [.table (m f i &&& pteMask)]
    else []

section Loop

variable {k k' : Kern} {l f : ℕ} {i : Fin 512}

theorem drop_state {it : Item} (h : k.drop it = .ok k') : k' = k.setPmm k'.pmm := by
  cases it with
  | table pa =>
    obtain ⟨p, -, hp⟩ := bind_ok.1 h
    rw [pure_ok] at hp
    rw [← hp]
    rfl
  | page pa =>
    obtain ⟨p, -, hp⟩ := bind_ok.1 h
    rw [pure_ok] at hp
    rw [← hp]
    rfl

theorem drop_mem {m : PhysMem} (s : Kern) (it : Item) (t : Kern) (hs : s.mem = m) (h : s.drop it = .ok t) :
    t.mem = m := by
  rw [drop_state h]
  exact hs

theorem freeEntry_eq {below : ℕ → Kern → Except Stop Kern} {m : PhysMem} (hm : k.mem = m)
    (hbelow : ∀ f k, k.mem = m → below f k = ((finRange 512).flatMap (drops m l f)).foldlM drop k) :
    freeEntry below (l + 1) f k i = (drops m (l + 1) f i).foldlM drop k := by
  rw [freeEntry, drops, hm]
  cases has (m f i) vmmPresent with
  | false => rfl
  | true =>
    simp only [Bool.not_true, Bool.false_eq_true, if_false, Nat.succ_pos, if_true, hbelow _ k hm]
    rw [foldlM_append]
    simp only [foldlM_cons, foldlM_nil, bind_pure, drop]

theorem freeEntry_page {below : ℕ → Kern → Except Stop Kern} {m : PhysMem} (hm : k.mem = m) :
    freeEntry below 0 f k i = (drops m 0 f i).foldlM drop k := by
  rw [freeEntry, drops, hm]
  cases has (m f i) vmmPresent with
  | false => rfl
  | true =>
    simp only [Bool.not_true, Bool.false_eq_true, if_false, Nat.lt_irrefl, if_true, foldlM_cons, foldlM_nil,
      bind_pure, drop]

/-- **The recursion is one loop.** -/
theorem freeUserTables_eq {m : PhysMem} (l f : ℕ) (k : Kern) (hm : k.mem = m) :
    freeUserTables l f k = ((finRange 512).flatMap (drops m l f)).foldlM drop k := by
  induction l generalizing f k with
  | zero => exact foldlM_expand (·.mem = m) drop_mem (fun s i hs => freeEntry_page hs) hm
  | succ l ih => exact foldlM_expand (·.mem = m) drop_mem (fun s i hs => freeEntry_eq hs ih) hm

end Loop

/-! ## The pages given back -/

/-- the tables among the items -/
def tableIdxs (its : List Item) : List ℕ := its.filterMap fun
  | .table pa => some (pageIdx pa)
  | .page _ => none

/-- the pages among the items -/
def pageIdxs (its : List Item) : List ℕ := its.filterMap fun
  | .table _ => none
  | .page pa => some (pageIdx pa)

theorem tableIdxs_append (a b : List Item) : tableIdxs (a ++ b) = tableIdxs a ++ tableIdxs b := filterMap_append

theorem pageIdxs_append (a b : List Item) : pageIdxs (a ++ b) = pageIdxs a ++ pageIdxs b := filterMap_append

theorem idx_perm (its : List Item) : (its.map Item.idx).Perm (tableIdxs its ++ pageIdxs its) := by
  induction its with
  | nil => exact .nil
  | cons it its ih =>
    cases it with
    | table pa => exact ih.cons _
    | page pa => exact (ih.cons _).trans perm_middle.symm

theorem flatMap_tableIdxs {α : Type} (l : List α) (u : α → List Item) :
    tableIdxs (l.flatMap u) = l.flatMap fun a => tableIdxs (u a) := by
  rw [tableIdxs, filterMap_flatMap]
  rfl

theorem flatMap_pageIdxs {α : Type} (l : List α) (u : α → List Item) :
    pageIdxs (l.flatMap u) = l.flatMap fun a => pageIdxs (u a) := by
  rw [pageIdxs, filterMap_flatMap]
  rfl

section Drops

variable {m : PhysMem} {l f : ℕ} {i : Fin 512}

/-- below an entry without large pages, the items are its tables and its pages -/
theorem drops_perm (hplain : ∀ p ∈ paging.leavesAt m l f i, p.1 = 0) :
    (tableIdxs (drops m l f i)).Perm (paging.tablesAt m l f i) ∧
      pageIdxs (drops m l f i) = (paging.leavesAt m l f i).map fun p => frame p.2 := by
  induction l generalizing f i with
  | zero =>
    rw [drops, Format.tablesAt, Format.leavesAt, Format.gather, Format.gather, ite_self]
    cases hp : has (m f i) vmmPresent with
    | false =>
      rw [if_neg (by decide), if_neg (by rw [paging_present, hp]; decide)]
      exact ⟨.nil, rfl⟩
    | true =>
      rw [if_pos rfl, if_pos (show paging.present (m f i) = true from hp)]
      exact ⟨.nil, rfl⟩
  | succ l ih =>
    cases hl : paging.link l (m f i) with
    | true =>
      have hp : has (m f i) vmmPresent = true := link_present hl
      rw [leavesAt_link hl] at hplain ⊢
      rw [tablesAt_link hl, drops, if_pos hp]
      have hsub : ∀ j, (tableIdxs (drops m l (frame (m f i)) j)).Perm (paging.tablesAt m l (frame (m f i)) j) ∧
          pageIdxs (drops m l (frame (m f i)) j) = (paging.leavesAt m l (frame (m f i)) j).map fun p => frame p.2 :=
        fun j => ih fun p hp' => hplain p (mem_flatMap.2 ⟨j, mem_finRange j, hp'⟩)
      constructor
      · rw [tableIdxs_append, flatMap_tableIdxs]
        refine (perm_append_singleton _ _).trans (.cons _ ?_)
        exact List.Perm.flatMap_left _ fun j _ => (hsub j).1
      · rw [pageIdxs_append, flatMap_pageIdxs, Format.leaves, map_flatMap]
        refine (append_nil _).trans (flatMap_congr fun j _ => (hsub j).2)
    | false =>
      cases hp : has (m f i) vmmPresent with
      | false =>
        rw [drops, hp, if_neg (by decide), Format.tablesAt, Format.leavesAt, gather_absent hp, gather_absent hp]
        exact ⟨.nil, rfl⟩
      | true =>
        -- a large page: there is none here
        refine absurd (hplain (l + 1, m f i) ?_) (Nat.succ_ne_zero l)
        rw [Format.leavesAt, Format.gather, hl, if_neg (by decide), if_pos (show paging.present (m f i) = true from hp)]
        exact mem_singleton_self _

end Drops

/-! ## The allocator afterwards -/

/-- the tables `T` and one reference to each of the pages `L` were given back -/
structure Freed (p : Pmm) (T L : List ℕ) (p' : Pmm) : Prop where
  ok : p'.Ok
  len : p'.bitmapLen = p.bitmapLen
  free : ∀ g, g ∈ p'.freeSet ↔ g ∈ p.freeSet ∨ g ∈ T ∨ (g ∈ L ∧ p.Lone g)
  counts : ∀ f, p'.counts f = if f ∈ L then p.counts f - 1 else p.counts f
  array : p'.refcounts = none ↔ p.refcounts = none
  freed : ∃ l, p'.freed = l ++ p.freed ∧ ∀ g, g ∈ l ↔ g ∈ T ∨ (g ∈ L ∧ p.Lone g)
  once : ∀ l, p'.freed = l ++ p.freed → l.Nodup

section Freed

variable {p p' p'' : Pmm} {T L : List ℕ} {g : ℕ}

theorem Freed.refl (h : p.Ok) : Freed p [] [] p where
  ok := h
  len := rfl
  free g := by simp
  counts f := by simp
  array := Iff.rfl
  freed := ⟨[], rfl, fun g => by simp⟩
  once l hl := by
    rw [self_eq_append_left.1 hl]
    exact nodup_nil

/-- a page before the others is given back once, if it is not among them -/
theorem Freed.once_snoc (F : Freed p' T L p'') (hfreed : p'.freed = g :: p.freed) (hT : g ∉ T) (hL : g ∉ L) (l : List ℕ)
    (hl : p''.freed = l ++ p.freed) : l.Nodup := by
  obtain ⟨l₀, hl₀, hmem⟩ := F.freed
  have hcut : l = l₀ ++ [g] := by
    rw [hl₀, hfreed, append_cons] at hl
    exact (append_cancel_right hl).symm
  rw [hcut, nodup_append]
  refine ⟨F.once l₀ hl₀, nodup_singleton g, ?_⟩
  rintro a ha b hb rfl
  rw [mem_singleton.1 hb, hmem] at ha
  exact ha.elim hT fun h => hL h.1

theorem lone_congr (hc : p'.counts g = p.counts g) (ha : p'.refcounts = none ↔ p.refcounts = none) :
    p'.Lone g ↔ p.Lone g := by
  rw [Pmm.Lone, Pmm.Lone, hc, Ne, Ne, ha]

/-- a table before the others -/
theorem Freed.table (hG : Gives p g p') (hT : g ∉ T) (hL : g ∉ L) (F : Freed p' T L p'') : Freed p (g :: T) L p'' := by
  have hcounts : p'.counts = p.counts := by rw [Pmm.counts, hG.refs, Pmm.counts]
  have hlone : ∀ h, p'.Lone h ↔ p.Lone h := fun h => lone_congr (by rw [hcounts]) (by rw [hG.refs])
  constructor
  case ok => exact F.ok
  case len => exact F.len.trans hG.len
  case free =>
    intro h
    rw [F.free, hG.free, Finset.mem_insert, hlone, mem_cons]
    tauto
  case counts =>
    intro f
    rw [F.counts, hcounts]
  case array => rw [F.array, hG.refs]
  case freed =>
    obtain ⟨l, hl, hmem⟩ := F.freed
    refine ⟨l ++ [g], by rw [hl, hG.freed, append_assoc]; rfl, fun h => ?_⟩
    rw [mem_append, mem_singleton, hmem, hlone, mem_cons]
    tauto
  case once => exact F.once_snoc hG.freed hT hL

/-- a page before the others -/
theorem Freed.page (hD : Drops p g p') (hT : g ∉ T) (hg : g ∉ L) (F : Freed p' T L p'') : Freed p T (g :: L) p'' := by
  have hcounts : ∀ f, f ≠ g → p'.counts f = p.counts f := fun f hf => by
    rw [hD.counts, update_of_ne hf]
  have hlone : ∀ h ∈ L, p'.Lone h ↔ p.Lone h := fun h hh =>
    lone_congr (hcounts h fun hc => hg (hc ▸ hh)) hD.array
  constructor
  case ok => exact F.ok
  case len => exact F.len.trans hD.len
  case free =>
    intro h
    have hfree : h ∈ p'.freeSet ↔ h ∈ p.freeSet ∨ (h = g ∧ p.Lone g) := by
      by_cases hl : p.Lone g
      · rw [(hD.gives hl).1, Finset.mem_insert]
        tauto
      · rw [(hD.keeps hl).1]
        tauto
    rw [F.free, hfree, mem_cons]
    constructor
    · rintro ((hh | ⟨rfl, hl⟩) | hh | ⟨hh, hl⟩)
      · exact .inl hh
      · exact .inr (.inr ⟨.inl rfl, hl⟩)
      · exact .inr (.inl hh)
      · exact .inr (.inr ⟨.inr hh, (hlone h hh).1 hl⟩)
    · rintro (hh | hh | ⟨rfl | hh, hl⟩)
      · exact .inl (.inl hh)
      · exact .inr (.inl hh)
      · exact .inl (.inr ⟨rfl, hl⟩)
      · exact .inr (.inr ⟨hh, (hlone h hh).2 hl⟩)
  case counts =>
    intro f
    rw [F.counts]
    by_cases hfg : f = g
    · subst hfg
      rw [if_neg hg, if_pos mem_cons_self, hD.counts, update_self]
    · rw [hcounts f hfg]
      by_cases hf : f ∈ L
      · rw [if_pos hf, if_pos (mem_cons_of_mem _ hf)]
      · rw [if_neg hf, if_neg fun hc => (mem_cons.1 hc).elim hfg hf]
  case array => rw [F.array, hD.array]
  case freed =>
    obtain ⟨l, hl, hmem⟩ := F.freed
    have hrest : ∀ h, h ∈ l ↔ h ∈ T ∨ (h ∈ L ∧ p.Lone h) := fun h => by
      rw [hmem]
      exact or_congr_right (and_congr_right (hlone h))
    by_cases hlg : p.Lone g
    · refine ⟨l ++ [g], by rw [hl, (hD.gives hlg).2, append_assoc]; rfl, fun h => ?_⟩
      rw [mem_append, mem_singleton, hrest, mem_cons]
      constructor
      · rintro ((hh | hh) | rfl)
        · exact .inl hh
        · exact .inr ⟨.inr hh.1, hh.2⟩
        · exact .inr ⟨.inl rfl, hlg⟩
      · rintro (hh | ⟨rfl | hh, hl⟩)
        · exact .inl (.inl hh)
        · exact .inr rfl
        · exact .inl (.inr ⟨hh, hl⟩)
    · refine ⟨l, by rw [hl, (hD.keeps hlg).2], fun h => ?_⟩
      rw [hrest, mem_cons]
      refine or_congr_right ⟨fun hh => ⟨.inr hh.1, hh.2⟩, ?_⟩
      rintro ⟨rfl | hh, hl⟩
      · exact absurd hl hlg
      · exact ⟨hh, hl⟩
  case once =>
    by_cases hlg : p.Lone g
    · exact F.once_snoc (hD.gives hlg).2 hT hg
    · intro l hl
      rw [← (hD.keeps hlg).2] at hl
      exact F.once l hl

end Freed

/-- **Different used pages can all be given back.** -/
theorem dropAll_spec {k : Kern} {its : List Item} (hk : k.pmm.Ok) (hnodup : (its.map Item.idx).Nodup)
    (hin : ∀ it ∈ its, it.idx < k.pmm.bitmapLen) (hused : ∀ it ∈ its, it.idx ∉ k.pmm.freeSet)
    (h0 : ∀ it ∈ its, it.idx ≠ 0) :
    ∃ p, its.foldlM drop k = .ok (k.setPmm p) ∧ Freed k.pmm (tableIdxs its) (pageIdxs its) p := by
  induction its generalizing k with
  | nil => exact ⟨k.pmm, rfl, .refl hk⟩
  | cons it its ih =>
    rw [map_cons, nodup_cons] at hnodup
    rw [forall_mem_cons] at hin hused h0
    have hne : ∀ it' ∈ its, it'.idx ≠ it.idx := fun it' hit' hc => hnodup.1 (hc ▸ mem_map.2 ⟨it', hit', rfl⟩)
    have hT : it.idx ∉ tableIdxs its := fun hc => hnodup.1 ((idx_perm its).mem_iff.2 (mem_append_left _ hc))
    have hL : it.idx ∉ pageIdxs its := fun hc => hnodup.1 ((idx_perm its).mem_iff.2 (mem_append_right _ hc))
    cases it with
    | table pa =>
      obtain ⟨p1, hrun, hG⟩ := Pmm.pmmFree_spec hk pa hin.1 hused.1
      have hstep : k.drop (.table pa) = .ok (k.setPmm p1) := by
        rw [drop, Kern.pmmFree, hrun]
        rfl
      obtain ⟨p2, hrest, F⟩ := @ih (k.setPmm p1) (hG.ok h0.1) hnodup.2 (fun it' hit' => hG.len ▸ hin.2 it' hit')
        (fun it' hit' => by
          rw [setPmm_pmm, hG.free, Finset.mem_insert, not_or]
          exact ⟨hne it' hit', hused.2 it' hit'⟩) h0.2
      exact ⟨p2, foldlM_cons_ok.2 ⟨_, hstep, hrest⟩, F.table hG hT hL⟩
    | page pa =>
      obtain ⟨p1, hrun, hD⟩ := Pmm.pmmUnref_spec hk hin.1 hused.1 h0.1
      have hstep : k.drop (.page pa) = .ok (k.setPmm p1) := by
        rw [drop, Kern.pmmUnref, hrun]
        rfl
      have hfree : ∀ it' ∈ its, it'.idx ∉ p1.freeSet := fun it' hit' hc => by
        by_cases hl : k.pmm.Lone (pageIdx pa)
        · rw [(hD.gives hl).1, Finset.mem_insert] at hc
          exact hc.elim (hne it' hit') (hused.2 it' hit')
        · rw [(hD.keeps hl).1] at hc
          exact hused.2 it' hit' hc
      obtain ⟨p2, hrest, F⟩ := @ih (k.setPmm p1) hD.ok hnodup.2 (fun it' hit' => hD.len ▸ hin.2 it' hit') hfree h0.2
      exact ⟨p2, foldlM_cons_ok.2 ⟨_, hstep, hrest⟩, F.page hD hT hL⟩

theorem Freed.congr {p p' : Pmm} {T T' L : List ℕ} (F : Freed p T L p') (hT : ∀ g, g ∈ T ↔ g ∈ T') :
    Freed p T' L p' where
  ok := F.ok
  len := F.len
  free g := by rw [F.free, hT]
  counts := F.counts
  array := F.array
  freed := by
    obtain ⟨l, hl, hmem⟩ := F.freed
    exact ⟨l, hl, fun g => by rw [hmem, hT]⟩
  once := F.once

/-! ## A space given back -/

section Torn

variable {k : Kern} {roots : List ℕ} {cr3 : PAddr} {r : ℕ}

/-- the teardown is one loop -/
theorem teardown_eq (h0 : cr3 ≠ 0) : teardown cr3 k =
    (lowerHalf.flatMap (drops k.mem 3 (pageIdx cr3)) ++ [Item.table cr3]).foldlM drop (k.vmmSwitch cr3) := by
  have hloop : lowerHalf.foldlM (freeEntry (freeUserTables 2) 3 (pageIdx cr3)) (k.vmmSwitch cr3) =
      (lowerHalf.flatMap (drops k.mem 3 (pageIdx cr3))).foldlM drop (k.vmmSwitch cr3) :=
    foldlM_expand (·.mem = k.mem) drop_mem
      (fun s i hs => freeEntry_eq hs fun f s hs => freeUserTables_eq 2 f s hs) rfl
  rw [teardown, if_neg h0, hloop, foldlM_append]
  simp only [foldlM_cons, foldlM_nil, bind_pure, drop]

/-- the allocator's cursor stays where it is -/
theorem drop_cursor {s t : Kern} {it : Item} (h : s.drop it = .ok t) :
    t.pmm.nextFreeScan = s.pmm.nextFreeScan ∧ t.pmm.bitmapLen = s.pmm.bitmapLen := by
  have hfree : ∀ {p p' : Pmm} {pa : PAddr}, p.pmmFree pa = .ok p' →
      p'.nextFreeScan = p.nextFreeScan ∧ p'.bitmapLen = p.bitmapLen := by
    intro p p' pa hp
    unfold Pmm.pmmFree at hp
    simp only at hp
    split_ifs at hp
    obtain ⟨b, -, hp⟩ := bind_ok.1 hp
    split_ifs at hp
    obtain ⟨q, hq, hp⟩ := bind_ok.1 hp
    obtain ⟨w, -, hq⟩ := bind_ok.1 hq
    rw [pure_ok] at hp hq
    rw [← hp, ← hq]
    exact ⟨rfl, rfl⟩
  cases it with
  | table pa =>
    obtain ⟨p, hp, ht⟩ := bind_ok.1 h
    rw [pure_ok] at ht
    rw [← ht]
    exact hfree hp
  | page pa =>
    obtain ⟨p, hp, ht⟩ := bind_ok.1 h
    rw [pure_ok] at ht
    rw [← ht]
    unfold Pmm.pmmUnref at hp
    dsimp only at hp
    split at hp
    · rw [pure_ok] at hp
      rw [← hp]
      exact ⟨rfl, rfl⟩
    · split_ifs at hp
      · rw [pure_ok] at hp
        rw [← hp]
        exact ⟨rfl, rfl⟩
      · rw [pure_ok] at hp
        rw [← hp]
        exact ⟨rfl, rfl⟩
      · obtain ⟨h1, h2⟩ := hfree hp
        exact ⟨h1, h2⟩

theorem teardown_cursor {t : Kern} (h0 : cr3 ≠ 0) (h : teardown cr3 k = .ok t) :
    t.pmm.nextFreeScan = k.pmm.nextFreeScan ∧ t.pmm.bitmapLen = k.pmm.bitmapLen := by
  rw [teardown_eq h0] at h
  refine foldlM_inv (fun s => s.pmm.nextFreeScan = k.pmm.nextFreeScan ∧ s.pmm.bitmapLen = k.pmm.bitmapLen) ?_
    ⟨rfl, rfl⟩ h
  intro s it t _ hs ht
  obtain ⟨h1, h2⟩ := drop_cursor ht
  exact ⟨h1.trans hs.1, h2.trans hs.2⟩

/-- **The teardown of a space**, whatever its entries allow. -/
theorem Trees.teardown (T : Trees k roots lowerHalf) (hr : pageIdx cr3 ∈ roots) (h0 : cr3 ≠ 0)
    (hplain : ∀ p ∈ paging.leaves k.mem 3 (pageIdx cr3) lowerHalf, p.1 = 0) (hown : (frames k.mem (pageIdx cr3)).Nodup)
    (hapart : ∀ f ∈ frames k.mem (pageIdx cr3), f ∉ paging.tables k.mem 3 (pageIdx cr3) lowerHalf)
    (hinside : ∀ f ∈ frames k.mem (pageIdx cr3), f < k.pmm.bitmapLen)
    (hused : ∀ f ∈ frames k.mem (pageIdx cr3), f ∉ k.pmm.freeSet)
    (hzero : ∀ g ∈ paging.tables k.mem 3 (pageIdx cr3) lowerHalf, g ≠ 0)
    (hzero' : ∀ f ∈ frames k.mem (pageIdx cr3), f ≠ 0) : ∃ p, Kern.teardown cr3 k = .ok ((k.vmmSwitch cr3).setPmm p) ∧
      Freed k.pmm (paging.tables k.mem 3 (pageIdx cr3) lowerHalf) (frames k.mem (pageIdx cr3)) p := by
  generalize hits : lowerHalf.flatMap (drops k.mem 3 (pageIdx cr3)) ++ [.table cr3] = its
  have hrun : Kern.teardown cr3 k = its.foldlM drop (k.vmmSwitch cr3) := by
    rw [teardown_eq h0, hits]
  have hperm : ∀ i ∈ lowerHalf, (tableIdxs (drops k.mem 3 (pageIdx cr3) i)).Perm
      (paging.tablesAt k.mem 3 (pageIdx cr3) i) ∧ pageIdxs (drops k.mem 3 (pageIdx cr3) i) =
      (paging.leavesAt k.mem 3 (pageIdx cr3) i).map fun p => frame p.2 := fun i hi =>
    drops_perm fun p hp => hplain p (mem_flatMap.2 ⟨i, hi, hp⟩)
  have htables : (tableIdxs its).Perm (paging.tables k.mem 3 (pageIdx cr3) lowerHalf) := by
    rw [← hits, tableIdxs_append, flatMap_tableIdxs]
    refine (perm_append_singleton _ _).trans (.cons _ ?_)
    exact List.Perm.flatMap_left _ fun i hi => (hperm i hi).1
  have hpages : pageIdxs its = frames k.mem (pageIdx cr3) := by
    rw [← hits, pageIdxs_append, flatMap_pageIdxs, frames, Format.leaves, map_flatMap]
    exact (append_nil _).trans (flatMap_congr fun i hi => (hperm i hi).2)
  -- each item is a table or a page of the space
  have hmem : ∀ it ∈ its, it.idx ∈ paging.tables k.mem 3 (pageIdx cr3) lowerHalf ∨
      it.idx ∈ frames k.mem (pageIdx cr3) := by
    intro it hit
    have := (idx_perm its).mem_iff.1 (mem_map_of_mem hit)
    rw [mem_append, htables.mem_iff, hpages] at this
    exact this
  have hforest : ∀ g ∈ paging.tables k.mem 3 (pageIdx cr3) lowerHalf, g ∈ paging.forest k.mem 3 roots lowerHalf :=
    fun g hg => mem_forest.2 ⟨_, hr, hg⟩
  have hnodup : (its.map Item.idx).Nodup := by
    rw [(idx_perm its).nodup_iff, hpages, nodup_append]
    refine ⟨htables.nodup_iff.2 (tree_of_forest T.nodup hr), hown, ?_⟩
    rintro g hg f hf rfl
    exact hapart g hf (htables.mem_iff.1 hg)
  obtain ⟨p, hp, F⟩ := dropAll_spec (k := k.vmmSwitch cr3) T.pmm hnodup
    (fun it hit => (hmem it hit).elim (fun hg => T.inside _ (hforest _ hg)) (hinside _))
    (fun it hit => (hmem it hit).elim (fun hg => T.used _ (hforest _ hg)) (hused _))
    (fun it hit => (hmem it hit).elim (hzero _) (hzero' _))
  refine ⟨p, hrun.trans hp, ?_⟩
  rw [← hpages]
  exact F.congr fun g => htables.mem_iff

/-- the teardown of one of several spaces in order -/
theorem teardown_spec (h : Spaces k roots) (hr : pageIdx cr3 ∈ roots) (h0 : cr3 ≠ 0)
    (hzero : ∀ g ∈ paging.tables k.mem 3 (pageIdx cr3) lowerHalf, g ≠ 0)
    (hzero' : ∀ f ∈ frames k.mem (pageIdx cr3), f ≠ 0) : ∃ p, teardown cr3 k = .ok ((k.vmmSwitch cr3).setPmm p) ∧
      Freed k.pmm (paging.tables k.mem 3 (pageIdx cr3) lowerHalf) (frames k.mem (pageIdx cr3)) p :=
  h.trees.teardown hr h0 (fun p hp => (h.plain _ hr p hp).1) (h.own _ hr)
    (fun f hf hc => h.apart _ hr f hf (mem_forest.2 ⟨_, hr, hc⟩)) (h.inside _ hr) (h.used _ hr) hzero hzero'

/-- **The other spaces** are in order, if no page that they map is given back. -/
theorem Spaces.torn {k' : Kern} (h : Spaces k (r :: roots)) (hmem : k'.mem = k.mem)
    (F : Freed k.pmm (paging.tables k.mem 3 r lowerHalf) (frames k.mem r) k'.pmm)
    (hshared : ∀ r' ∈ roots, ∀ f ∈ frames k.mem r, f ∈ frames k.mem r' → 2 ≤ k.pmm.counts f) : Spaces k' roots := by
  have hcons : paging.forest k.mem 3 (r :: roots) lowerHalf =
      paging.tables k.mem 3 r lowerHalf ++ paging.forest k.mem 3 roots lowerHalf := flatMap_cons
  have hr : r ∈ r :: roots := mem_cons_self
  have hroots : ∀ r' ∈ roots, r' ∈ r :: roots := fun r' hr' => mem_cons_of_mem r hr'
  have hleft : ∀ g ∈ paging.tables k.mem 3 r lowerHalf, g ∈ paging.forest k.mem 3 (r :: roots) lowerHalf :=
    fun g hg => by
    rw [hcons]
    exact mem_append_left _ hg
  have hright : ∀ g ∈ paging.forest k.mem 3 roots lowerHalf, g ∈ paging.forest k.mem 3 (r :: roots) lowerHalf :=
    fun g hg => by
    rw [hcons]
    exact mem_append_right _ hg
  have hnodup := h.trees.nodup
  rw [hcons] at hnodup
  refine h.tail.retained (fun r' _ => Agree.of_tables fun g _ => by rw [hmem]) F.ok F.len ?_ ?_ ?_
  · intro g hg
    rw [F.free]
    rintro (hc | hc | ⟨hc, -⟩)
    · exact h.trees.used g (hright g hg) hc
    · exact (nodup_append.1 hnodup).2.2 g hc g hg rfl
    · exact h.apart r hr g hc (hright g hg)
  · intro r' hr' f hf
    rw [F.free]
    rintro (hc | hc | ⟨hc, hlone⟩)
    · exact h.used r' (hroots r' hr') f hf hc
    · exact h.apart r' (hroots r' hr') f hf (hleft f hc)
    · exact absurd (hshared r' hr' f hc hf) (Nat.not_le.2 (Nat.lt_succ_of_le hlone.2))
  · intro r1 hr1 r2 hr2 hne f hf1 hf2
    rw [F.counts]
    split_ifs with hf
    · have := hshared r1 hr1 f hf hf1
      omega
    · exact h.counted r1 (hroots r1 hr1) r2 (hroots r2 hr2) hne f hf1 hf2

end Torn

end Uix.Kern
