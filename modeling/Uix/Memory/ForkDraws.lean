/-
What `vmm_fork_user_space` asks of the page allocator. The requests and their order are known from the tables of the
space alone: one page for the PML4, one for each table in the order of the tables, one reference for each user page. So
whether and where memory runs out is a matter of the allocator and of this list.

- `forkTable_draws`, `vmmFork_draws`: the allocator goes through the list of requests.
- `vmmFork_wild`: page 0 is taken for a PDPT, or for the array of reference counts, exactly if such a request is not
  met.
-/
import Uix.Memory.VmmFork

namespace Uix

open Machine Radix Radix.Format List
open Pmm (pageIdx pageAddr Takes Draws)

/-! ## Requests -/

/-- a request to the allocator -/
inductive Draw where
  /-- a page for a table, and what happens without one -/
  | table (oom : Stop)
  /-- a reference to a page -/
  | page (pa : PAddr)
  deriving DecidableEq, Repr

namespace Draw

def run (p : Pmm) : Draw → Except Stop Pmm
  | .table oom => do
    let (t, p) ← p.pmmAlloc
    if t = 0 then .error oom else pure p
  | .page pa => p.pmmRef pa

/-- the request is not met, and the kernel goes on with page 0 -/
def Unmet (p : Pmm) : Draw → Prop
  | .table oom => oom = .wild ∧ p.freeSet = ∅
  | .page pa => pageIdx pa < p.bitmapLen ∧ p.refcounts = none ∧ ∀ f, ¬ p.FreeRun f p.arrayPages

variable {p q : Pmm} {d : Draw} {ds : List Draw}

theorem run_ok (h : p.Ok) (hrun : d.run p = .ok q) : q.Ok := by
  cases d with
  | table oom =>
    obtain ⟨pa, p', halloc, hcase⟩ := Pmm.pmmAlloc_spec h
    rw [run, halloc, ok_bind] at hrun
    dsimp only at hrun
    split_ifs at hrun with h0
    rw [pure_ok] at hrun
    subst hrun
    rcases hcase with ⟨-, rfl, -⟩ | ⟨t, -, -, hT⟩
    · exact h
    · exact hT.ok
  | page pa =>
    obtain ⟨S, hD, -⟩ := (Pmm.pmmRef_spec h pa).of_eq hrun
    exact hD.ok

theorem run_wild (h : p.Ok) : d.run p = .error .wild ↔ d.Unmet p := by
  cases d with
  | table oom =>
    obtain ⟨pa, p', halloc, hcase⟩ := Pmm.pmmAlloc_spec h
    rw [run, halloc, ok_bind, Unmet]
    dsimp only
    rcases hcase with ⟨rfl, -, hempty⟩ | ⟨t, ht, rfl, -⟩
    · rw [if_pos rfl, Except.error.injEq, and_iff_left hempty]
    · rw [if_neg (Pmm.pageIdx_of_free h ht).1]
      exact iff_of_false (fun hc => by cases hc) fun hc => absurd ht (hc.2 ▸ Finset.notMem_empty t)
  | page pa => exact Pmm.pmmRef_wild h pa

/-- **The requests one after the other.** -/
theorem foldlM_wild (h : p.Ok) : ds.foldlM run p = .error .wild ↔
    ∃ pre d post q, ds = pre ++ d :: post ∧ pre.foldlM run p = .ok q ∧ d.Unmet q := by
  refine foldlM_error.trans ?_
  refine exists_congr fun pre => exists_congr fun d => exists_congr fun post => exists_congr fun q => ?_
  refine and_congr_right fun _ => and_congr_right fun hpre => ?_
  exact run_wild (foldlM_inv Pmm.Ok (fun p d q _ hp hrun => run_ok hp hrun) h hpre)

end Draw

namespace Kern

/-- the requests for an entry of a table and everything below it -/
def drawsAt (m : PhysMem) : ℕ → ℕ → Fin 512 → List Draw :=
  paging.gather (fun _ e => if has e vmmUser then [.page (e &&& pteMask)] else [])
    (fun _ => [.table (.panic .vmmOomForkTables)]) m

/-- the requests for an entry of the PML4 -/
def topDraws (m : PhysMem) (root : ℕ) (i : Fin 512) : List Draw :=
  if has (m root i) vmmPresent then .table .wild :: (List.finRange 512).flatMap (drawsAt m 2 (frame (m root i))) else []

/-- the requests of `vmm_fork_user_space` -/
def forkDraws (m : PhysMem) (root : ℕ) : List Draw :=
  .table (.panic .vmmOomForkPml4) :: lowerHalf.flatMap (topDraws m root)

/-! ## The allocator's part of a computation -/

def pmmOf (x : Except Stop Kern) : Except Stop Pmm := x.map Kern.pmm

theorem pmmOf_bind {x : Except Stop Kern} {f : Kern → Except Stop Kern} {y : Except Stop Pmm}
    {g : Pmm → Except Stop Pmm} (hx : pmmOf x = y) (hf : ∀ k, x = .ok k → pmmOf (f k) = g k.pmm) :
    pmmOf (x >>= f) = y >>= g := by
  subst hx
  cases x with
  | error e => rfl
  | ok k => exact hf k rfl

/-- a page for a table, and what follows -/
theorem pmmOf_table {k : Kern} {oom : Stop} {f : PAddr × Kern → Except Stop Kern} {ds : List Draw} (h : k.pmm.Ok)
    (hnone : ∀ k', f (0, k') = .error oom) (hsome : ∀ t p, t ∈ k.pmm.freeSet → pageAddr t ≠ 0 → Takes k.pmm {t} p →
      pmmOf (f (pageAddr t, k.setPmm p)) = ds.foldlM Draw.run p) :
    pmmOf (k.pmmAlloc >>= f) = (.table oom :: ds).foldlM Draw.run k.pmm := by
  obtain ⟨pa, p, hrun, hcase⟩ := Pmm.pmmAlloc_spec h
  rw [foldlM_cons, Draw.run, hrun, pmmAlloc, hrun]
  simp only [ok_bind, pure_eq_ok]
  rcases hcase with ⟨rfl, -, -⟩ | ⟨t, ht, rfl, hT⟩
  · rw [hnone, if_pos rfl]
    rfl
  · have h0 := (Pmm.pageIdx_of_free h ht).1
    rw [if_neg h0]
    exact hsome t p ht h0 hT

section Loop

variable {l src dst : ℕ} {is : List (Fin 512)} {i : Fin 512} {k k₀ : Kern} {body : Kern → Fin 512 → Except Stop Kern}
  {D : PhysMem → Fin 512 → List Draw}

/-- **A loop over the entries of a table** goes through their requests. -/
theorem forkLoop_draws (P : ForkPre l src dst is k₀)
    (hbody : ∀ k i, ForkPre l src dst [i] k → i ∈ is → k.mem dst i = k₀.mem dst i → k.pml4 = k₀.pml4 →
      Meets (body k i) (ForkStop k (paging.tablesAt k.mem l src i).length) fun k' => ∃ S, Forked l src dst [i] k k' S)
    (hdraws : ∀ k i, ForkPre l src dst [i] k → k.pml4 = k₀.pml4 →
      pmmOf (body k i) = (D k.mem i).foldlM Draw.run k.pmm)
    (hD : ∀ m i, i ∈ is → m src i = k₀.mem src i → (∀ g ∈ paging.tablesAt k₀.mem l src i, m g = k₀.mem g) →
      D m i = D k₀.mem i) :
    pmmOf (is.foldlM body k₀) = (is.flatMap (D k₀.mem)).foldlM Draw.run k₀.pmm := by
  suffices h : ∀ post pre k S, is = pre ++ post → Forked l src dst pre k₀ k S →
      pmmOf (post.foldlM body k) = (post.flatMap (D k₀.mem)).foldlM Draw.run k.pmm from
    h is [] k₀ ∅ rfl (.refl P.pmm)
  intro post
  induction post with
  | nil => exact fun _ _ _ _ _ => rfl
  | cons i post ih =>
    intro pre k S his F
    have hi := (P.split his).1
    obtain ⟨he, hs⟩ := F.todo P his
    rw [foldlM_cons, flatMap_cons, foldlM_append, ← hD k.mem i hi he hs]
    refine pmmOf_bind (hdraws k i (F.next P his) F.regs.1) fun k' hrun => ?_
    obtain ⟨S', G⟩ := (hbody k i (F.next P his) hi (F.target P his) F.regs.1).of_eq hrun
    exact ih (pre ++ [i]) k' (S ∪ S') (by rw [his, append_assoc]; rfl) (F.append P his G)

/-- `fill` goes through the requests of a whole table -/
def FillDraws (l : ℕ) (fill : ℕ → ℕ → Kern → Except Stop Kern) : Prop :=
  ∀ src dst k, ForkPre l src dst (List.finRange 512) k →
    pmmOf (fill src dst k) = ((List.finRange 512).flatMap (drawsAt k.mem l src)).foldlM Draw.run k.pmm

theorem forkLink_draws {fill : ℕ → ℕ → Kern → Except Stop Kern} (oom : Stop) (hfill : FillDraws l fill)
    (P : ForkPre (l + 1) src dst [i] k) (hl : paging.link l (k.mem src i) = true) :
    pmmOf (forkLink fill oom dst i (k.mem src i) k) =
      (.table oom :: (finRange 512).flatMap (drawsAt k.mem l (frame (k.mem src i)))).foldlM Draw.run k.pmm := by
  unfold forkLink
  refine pmmOf_table P.pmm (fun _ => rfl) fun t p ht h0 hT => ?_
  obtain ⟨hA, hPre⟩ := P.below hl ht hT
  simp only [if_neg h0, (Pmm.pageIdx_of_free P.pmm ht).2]
  have hrun := hfill _ _ _ hPre
  rw [drawsAt, hA.gather] at hrun
  refine (pmmOf_bind (g := pure) hrun fun k' _ => rfl).trans ?_
  exact bind_pure _

theorem forkEntry_draws {fill : ℕ → ℕ → Kern → Except Stop Kern} (hfill : l ≠ 0 → FillDraws (l - 1) fill) (hl2 : l ≤ 2)
    (P : ForkPre l src dst [i] k) :
    pmmOf (forkEntry fill l src dst k i) = (drawsAt k.mem l src i).foldlM Draw.run k.pmm := by
  simp only [forkEntry]
  cases hp : has (k.mem src i) vmmPresent with
  | false =>
    rw [drawsAt, gather_absent hp]
    rfl
  | true =>
    cases l with
    | zero =>
      rw [drawsAt, gather, paging_present, if_pos hp]
      simp only [Bool.not_true, Bool.false_eq_true, if_false, true_or, if_true]
      cases hu : has (k.mem src i) vmmUser with
      | true =>
        simp only [if_true, pmmRef, foldlM_cons, Draw.run]
        change pmmOf (k.pmm.pmmRef (k.mem src i &&& pteMask) >>= _) = _
        cases k.pmm.pmmRef (k.mem src i &&& pteMask) with
        | error e => rfl
        | ok p => rfl
      | false => rfl
    | succ l =>
      have hlink := P.link hp
      simp only [P.small hp (by omega), Bool.not_true, Bool.false_eq_true, if_false, Nat.succ_ne_zero,
        and_false, or_self]
      rw [forkLink_draws _ (hfill (Nat.succ_ne_zero l)) P hlink, drawsAt, gather_link hlink,
        singleton_append]
      rfl

/-- **`fork_table`** goes through the requests of the table. -/
theorem forkTable_draws (l : ℕ) (hl : l ≤ 2) : FillDraws l (forkTable l) := by
  induction l with
  | zero =>
    intro src dst k P
    rw [forkTable]
    refine forkLoop_draws (D := fun m => drawsAt m 0 src) P (fun k i P _ _ _ => forkEntry_leaf P) (fun k i P _ => ?_)
      fun _ _ _ => gather_congr
    exact forkEntry_draws (fun hc => absurd rfl hc) hl P
  | succ l ih =>
    intro src dst k P
    rw [forkTable]
    refine forkLoop_draws (D := fun m => drawsAt m (l + 1) src) P (fun k i P _ _ _ => ?_) (fun k i P _ => ?_)
      fun _ _ _ => gather_congr
    · exact forkEntry_link (forkTable_spec l (by omega)) (by omega) P
    · exact forkEntry_draws (fun _ => ih (by omega)) hl P

end Loop

/-! ## The user half -/

section Space

variable {k : Kern}

theorem topDraws_congr {m m' : PhysMem} {root : ℕ} {i : Fin 512} (he : m' root i = m root i)
    (hs : ∀ g ∈ paging.tablesAt m 3 root i, m' g = m g) (hplain : has (m root i) vmmPresent = true →
      paging.link 2 (m root i) = true) : topDraws m' root i = topDraws m root i := by
  unfold topDraws
  rw [he]
  split_ifs with hp
  · rw [tablesAt_link (hplain hp)] at hs
    exact congrArg _ (Agree.of_tables hs).gather
  · rfl

/-- **`vmm_fork_user_space`** goes through the requests of the space. -/
theorem vmmFork_draws (P : SpacePre k) : k.vmmForkUserSpace.map (fun r => r.2.pmm) =
    (forkDraws k.mem k.pml4).foldlM Draw.run k.pmm := by
  unfold vmmForkUserSpace
  obtain ⟨pa, p, halloc, hcase⟩ := Pmm.pmmAlloc_spec P.pmm
  rw [forkDraws, foldlM_cons, Draw.run, halloc, pmmAlloc, halloc]
  simp only [ok_bind, pure_eq_ok]
  rcases hcase with ⟨rfl, -, -⟩ | ⟨d, hd, rfl, hT⟩
  · rfl
  obtain ⟨h0, hidx⟩ := Pmm.pageIdx_of_free P.pmm hd
  have C := spaceCreated hd hT
  obtain ⟨hA, hPre⟩ := P.start C
  rw [if_neg h0, if_neg h0, hidx, ok_bind]
  set k₁ := ((k.setPmm p).zero d).copyUpper d
  have hlink : ∀ i ∈ lowerHalf, has (k₁.mem k.pml4 i) vmmPresent = true → paging.link 2 (k₁.mem k.pml4 i) = true := by
    intro i hi hp
    by_contra hl
    refine Nat.succ_ne_zero 2 (hPre.plain (3, k₁.mem k.pml4 i) (mem_flatMap.2 ⟨i, hi, ?_⟩))
    rw [Format.leavesAt, gather, if_neg hl, paging_present, if_pos hp]
    exact mem_singleton_self _
  -- the loop over the PML4
  have hloop : pmmOf (lowerHalf.foldlM (forkTop d) k₁) =
      (lowerHalf.flatMap (topDraws k₁.mem k.pml4)).foldlM Draw.run k₁.pmm := by
    refine forkLoop_draws (D := fun m => topDraws m k.pml4) hPre (fun k' i Pi hi hdi hroot => ?_)
      (fun k' i Pi hroot => ?_) fun m i hi he hs => ?_
    · have hr : k.pml4 = k'.pml4 := (hroot.trans C.regs.1).symm
      rw [hr] at Pi ⊢
      exact forkTop_spec Pi (by rw [hdi, C.lower i hi, zero_has])
    · have hr : k'.pml4 = k.pml4 := hroot.trans C.regs.1
      rw [forkTop, topDraws, hr]
      split_ifs with hp
      · exact forkLink_draws .wild (forkTable_draws 2 le_rfl) Pi (Pi.link hp)
      · rfl
    · exact topDraws_congr he hs (hlink i hi)
  have hdraws : lowerHalf.flatMap (topDraws k₁.mem k.pml4) = lowerHalf.flatMap (topDraws k.mem k.pml4) :=
    flatMap_congr fun i hi => topDraws_congr (hA.root i hi) (hA.below i hi) (hA.root i hi ▸ hlink i hi)
  rw [hdraws, show k₁.pmm = p from (copyUpper_rest ..).1] at hloop
  rw [← hloop]
  cases lowerHalf.foldlM (forkTop d) k₁ with
  | error e => rfl
  | ok k' => rfl

/-- **Page 0 taken for a page by a fork.** -/
theorem vmmFork_wild (P : SpacePre k) : k.vmmForkUserSpace = .error .wild ↔
    ∃ pre d post q, forkDraws k.mem k.pml4 = pre ++ d :: post ∧ pre.foldlM Draw.run k.pmm = .ok q ∧ d.Unmet q := by
  rw [← Draw.foldlM_wild P.pmm, ← vmmFork_draws P]
  cases k.vmmForkUserSpace with
  | error e => rw [Except.map, Except.error.injEq, Except.error.injEq]
  | ok r => exact iff_of_false (fun hc => by cases hc) fun hc => by cases hc

end Space

end Kern

end Uix
