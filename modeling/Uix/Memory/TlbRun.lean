/-
Runs with a translation cache: ring 3 accesses, page faults, `vmm_map`, `vmm_unmap`, `vmm_fork_user_space` and
`vmm_switch` in any order.

- `Coherent`: the spaces are in order, the active one is among them, and every translation kept agrees with its tables.
- `Coherent.step`: kept by every step but a fork that finds a writable translation or a page from 4 GiB on.
- `tlb_agrees`: so it holds in every run without such a fork.
- `write_after_fork`: a parent writes through a translation from before the fork, and the child reads what it wrote.
-/
import Uix.Memory.CowFault
import Uix.Memory.Tlb
import Uix.Memory.Filling

namespace Uix

open Machine Radix Radix.Format Bytes List Kern
open Pmm (pageIdx pageAddr Takes Draws)

/-! ## Translations in a space in order -/

namespace Kern

/-- what the tables say of a user address: the page at the end of the walk, and its write bit -/
theorem Spaces.translate_walk {k : Kern} {roots : List ℕ} {r : ℕ} (h : Spaces k roots) (hr : r ∈ roots)
    (va : UserAddr) : Uix.translate k.mem r va.1 =
      (paging.walk k.mem 3 r (idx va.1)).map fun p => (frame p.2, has p.2 writeBit) := by
  have hl : ∀ e ∈ paging.linksAt k.mem 3 r (idx va.1 3), TableLink e := fun e he =>
    h.links r hr e (mem_flatMap.2 ⟨_, va.lower, he⟩)
  have hwalk := mmuWalk_walk k.mem 3 r (idx va.1)
  rw [← hwalk, Uix.translate]
  cases ht : mmuWalk k.mem 3 r (idx va.1) with
  | none => rfl
  | some t =>
    rw [ht, Option.map_some] at hwalk
    obtain ⟨e, he, hu⟩ := h.walk_plain hr va.lower hwalk.symm
    obtain ⟨hlevel, rfl⟩ := Prod.mk.inj he
    obtain ⟨hw, huser⟩ := mmuWalk_perm hl ht
    simp only [huser, hu, if_true, hw, (physAddr_page hlevel va.1).1, Option.map_some]

/-- a store at an offset in a page -/
theorem storeByte_page (k : Kern) (f : ℕ) {o : ℕ} (b : BitVec 8) (ho : o < pageSize) :
    k.storeByte (f * pageSize + o) b = k.putByte f o b := by
  have hdiv : (f * pageSize + o) / pageSize = f := by
    rw [Nat.mul_comm, Nat.mul_add_div (by decide), Nat.div_eq_of_lt ho, Nat.add_zero]
  have hmod : (f * pageSize + o) % pageSize = o := by
    rw [Nat.mul_add_mod', Nat.mod_eq_of_lt ho]
  rw [storeByte, putByte, hdiv, hmod]

/-- `vmm_unmap` below entry 511 takes no page -/
theorem slotCleared {k : Kern} {va : U64} {g : ℕ} (T : Trees k [k.pml4] [511]) (hva : idx va 3 = 511)
    (hat : At paging k.mem (idx va) 3 k.pml4 0 g) : SlotGrown k (k.set g (idx va 0) 0) k.pml4 ∅ := by
  have hx : idx va 3 ∈ ([511] : List (Fin 512)) := mem_singleton.2 hva
  have hr := mem_singleton_self k.pml4
  have P := patched_set 0 T (nodup_singleton _) hr hx hat
  have hgt : g ∈ paging.tablesAt k.mem 3 k.pml4 511 := hva ▸ hat.mem_tablesAt (Nat.zero_le 2)
  have hgr : k.pml4 ≠ g := (root_ne_of_tables (tree_of_forest T.nodup hr) (mem_singleton_self _) hgt).symm
  have hT := T.set P
  constructor
  case takes => exact .refl T.pmm
  case regs => exact ⟨rfl, rfl, rfl⟩
  case tree => exact hT
  case sub =>
    intro h hh
    have hne := root_ne_of_tables (tree_of_forest hT.nodup hr) (mem_singleton_self _) hh
    have hf : h ∈ paging.forest k.mem 3 [k.pml4] [511] := by
      rw [← P.forest, forest_slot]
      exact mem_slotTables.2 (.inr hh)
    rw [forest_slot, mem_slotTables] at hf
    exact .inl (hf.resolve_left hne)
  case root => exact set_mem_of_ne _ _ _ hgr
  case outside =>
    intro f _ hf
    refine set_mem_of_ne _ _ _ ?_
    rintro rfl
    exact hf hgt

/-- a page taken, with nothing done to it yet -/
theorem Sound.taken {k : Kern} {kroot t : ℕ} {roots : List ℕ} {p : Pmm} (h : Sound kroot k roots)
    (hT : Takes k.pmm {t} p) : Sound kroot (k.setPmm p) roots := by
  have hcounts : p.counts = k.pmm.counts := by rw [Pmm.counts, hT.refs, Pmm.counts]
  have hA : ∀ r ∈ roots, Agree paging k.mem (k.setPmm p).mem 3 r lowerHalf := fun _ _ => .of_tables fun _ _ => rfl
  have H : Halves (k.setPmm p) kroot roots := h.halves.regs hT.draws rfl
  exact ⟨h.spaces.agree hA hT.draws fun f hf => hcounts.symm ▸ hf, H, h.pages⟩

/-- **`vmm_map` of a new page below entry 511** -/
theorem Sound.mapKernel {k : Kern} {kroot : ℕ} {roots : List ℕ} {va flags : U64} (h : Sound kroot k roots)
    (hr : k.pml4 ∈ roots) (hva : idx va 3 = 511) :
    Meets (k.mapPage va flags) (fun _ => True) fun r => Sound kroot r.2 roots ∧
      (∀ r' ∈ roots, Agree paging k.mem r.2.mem 3 r' lowerHalf) ∧ r.2.pml4 = k.pml4 ∧ r.2.cr3 = k.cr3 := by
  have hact : k.pml4 ∈ kroot :: roots := mem_cons_of_mem _ hr
  unfold mapPage
  refine meets_alloc h.spaces.trees.pmm (fun _ => ?_) fun t p ht h0 hT => ?_
  · exact Meets.bind (P := fun _ => True) ⟨fun _ => trivial, fun _ => trivial⟩ fun k' _ => meets_error trivial
  · have h1 := h.taken hT
    have hslot : has (k.mem k.pml4 511) vmmPresent = true := by
      rw [h.halves.entry hact slot_mem_upperHalf]
      exact h.halves.slot
    have hgrown := @slotGrown (k.setPmm p) va (pageAddr t) flags (h1.halves.slotTree hact) hslot hva
    refine (hgrown.mono (fun _ _ => trivial) fun _ h => h).bind ?_
    rintro k' ⟨S, G, -⟩
    rw [if_neg h0]
    obtain ⟨h2, hA⟩ := h1.slot hact G
    exact meets_ok ⟨h2, hA, G.regs.1, G.regs.2.1⟩

/-- the order of the spaces does not matter -/
theorem Sound.perm {k : Kern} {kroot : ℕ} {roots roots' : List ℕ} (h : Sound kroot k roots) (hp : roots.Perm roots') :
    Sound kroot k roots' := by
  have hS := h.spaces.perm hp
  have hmem : ∀ r, r ∈ roots' → r ∈ roots := fun r hr => hp.mem_iff.2 hr
  refine ⟨hS, ⟨hS.trees, fun r hr => h.halves.plain r (hmem r hr), h.halves.kernel, h.halves.slot,
    fun r hr => h.halves.upper r (hmem r hr), fun g hg hc => h.halves.apart g hg ?_⟩, fun r hr => h.pages r (hmem r hr)⟩
  obtain ⟨r, hr, hc⟩ := mem_forest.1 hc
  exact mem_forest.2 ⟨r, hmem r hr, hc⟩

end Kern

namespace TlbState

/-! ## The invariant -/

/-- spaces in order, one of them active, and no translation kept that its tables do not give -/
structure Coherent (kroot : ℕ) (s : TlbState) : Prop where
  sound : Kern.Sound kroot s.kern s.roots
  active : s.kern.pml4 = frame s.kern.cr3
  known : s.kern.cr3 ∈ s.spaces
  pages : ∀ cr3 ∈ s.spaces, pageIdx cr3 = frame cr3
  agrees : s.Agrees

section Step

variable {kroot : ℕ} {s t : TlbState} {k : Kern} {va : UserAddr}

theorem Coherent.mem (h : Coherent kroot s) : s.kern.pml4 ∈ s.roots := by
  rw [h.active]
  exact mem_map_of_mem h.known

/-- a step that leaves the walks of the translations kept -/
theorem Coherent.keep {tlb : List TlbEntry} (h : Coherent kroot s) (hS : Sound kroot k s.roots)
    (hregs : k.pml4 = s.kern.pml4 ∧ k.cr3 = s.kern.cr3)
    (hw : ∀ e ∈ tlb, e ∈ s.tlb ∧ paging.walk k.mem 3 s.kern.pml4 (idx e.page.1) =
      paging.walk s.kern.mem 3 s.kern.pml4 (idx e.page.1)) : Coherent kroot ⟨k, s.spaces, tlb⟩ := by
  refine ⟨hS, by rw [hregs.1, hregs.2, h.active], by rw [hregs.2]; exact h.known, h.pages, fun e he => ?_⟩
  obtain ⟨hold, hwalk⟩ := hw e he
  rw [← h.agrees e hold]
  simp only [hregs.2]
  rw [← h.active, hS.spaces.translate_walk h.mem, hwalk, h.sound.spaces.translate_walk h.mem]

/-- a step that changes one page's walk and flushes that page -/
theorem Coherent.flushed (h : Coherent kroot s) (hS : Sound kroot k s.roots)
    (hregs : k.pml4 = s.kern.pml4 ∧ k.cr3 = s.kern.cr3) (hO : OtherWalks s.kern k s.roots va.1) :
    Coherent kroot ({ s with kern := k }.invlpg va.1) := by
  refine h.keep hS hregs fun e he => ?_
  obtain ⟨hold, hpage⟩ := mem_filter.1 he
  refine ⟨hold, hO e.page ?_ _ h.mem⟩
  have hne : ¬ SamePage e.page va := by
    rw [samePage_iff]
    exact of_decide_eq_true hpage
  simpa [SamePage] using hne

/-- a step that leaves the user halves alone, with or without a flush -/
theorem Coherent.same {tlb : List TlbEntry} (h : Coherent kroot s) (hS : Sound kroot k s.roots)
    (hregs : k.pml4 = s.kern.pml4 ∧ k.cr3 = s.kern.cr3)
    (hA : ∀ r ∈ s.roots, Agree paging s.kern.mem k.mem 3 r lowerHalf) (htlb : ∀ e ∈ tlb, e ∈ s.tlb) :
    Coherent kroot ⟨k, s.spaces, tlb⟩ :=
  h.keep hS hregs fun e he => ⟨htlb e he, (hA _ h.mem).walk e.page.lower⟩

/-! ## One step -/

theorem Coherent.fault {a err : U64} {r : ℤ} (h : Coherent kroot s) (hf : s.fault a err = .ok (r, t)) :
    Coherent kroot t := by
  obtain ⟨⟨r', k⟩, hrun, ht⟩ := bind_ok.1 hf
  obtain ⟨rfl, rfl⟩ := Prod.mk.inj (pure_ok.1 ht)
  by_cases hc : err &&& 3 = 3 ∧ a < 0x0000800000000000#64
  · obtain ⟨va, rfl⟩ : ∃ va : UserAddr, va.1 = a := ⟨⟨a, hc.2⟩, rfl⟩
    rcases (vmmPageFault_spec h.sound.spaces.trees.pmm va hc.1).of_eq hrun with ⟨heq, -⟩ | ⟨h0, g, e, L, hcase⟩
    · obtain ⟨rfl, rfl⟩ := Prod.mk.inj heq
      exact h
    · simp only at h0 hcase
      rw [if_pos h0]
      rcases hcase with ⟨p, C⟩ | C
      · obtain ⟨hS, hO⟩ := h.sound.copied h.mem L C
        refine h.flushed hS ?_ hO
        rw [C.state]
        exact ⟨rfl, rfl⟩
      · obtain ⟨hS, hO⟩ := h.sound.unmarked h.mem L C
        refine h.flushed hS ?_ hO
        rw [C.state]
        exact ⟨rfl, rfl⟩
  · rw [vmmPageFault_refused hc, Except.ok.injEq] at hrun
    obtain ⟨rfl, rfl⟩ := Prod.mk.inj hrun
    exact h

theorem Coherent.userFault {a err : U64} (h : Coherent kroot s) (hf : s.userFault a err = .ok t) :
    Coherent kroot t := by
  obtain ⟨⟨r, s'⟩, hrun, ht⟩ := bind_ok.1 hf
  simp only at ht
  split_ifs at ht
  rw [← pure_ok.1 ht]
  exact h.fault hrun

/-- an access to a page of the active space, and what the tables say afterwards -/
theorem Coherent.touch {byte : Option (BitVec 8)} {f : ℕ} {write : Bool} (h : Coherent kroot s)
    (hf : f ∈ frames s.kern.mem s.kern.pml4) (ht : s.touch va byte f write = some t) :
    Coherent kroot t ∧ t.kern.cr3 = s.kern.cr3 ∧ Agree paging s.kern.mem t.kern.mem 3 s.kern.pml4 lowerHalf ∧
      Uix.translate t.kern.mem (frame s.kern.cr3) va.1 = Uix.translate s.kern.mem (frame s.kern.cr3) va.1 := by
  rw [← h.active]
  cases byte with
  | none =>
    rw [TlbState.touch, Option.some.injEq] at ht
    subst ht
    exact ⟨h, rfl, .of_tables fun _ _ => rfl, rfl⟩
  | some b =>
    simp only [TlbState.touch] at ht
    split_ifs at ht
    rw [Option.some.injEq] at ht
    subst ht
    obtain ⟨hS, hA⟩ := h.sound.stored h.mem hf (va.1.toNat % pageSize) b
    simp only [storeByte_page _ _ _ (Nat.mod_lt _ (by decide : 0 < pageSize))]
    refine ⟨h.same hS ⟨rfl, rfl⟩ hA fun _ he => he, rfl, hA _ h.mem, ?_⟩
    rw [hS.spaces.translate_walk h.mem, (hA _ h.mem).walk va.lower, h.sound.spaces.translate_walk h.mem]

/-- the page of a translation is one of the active space -/
theorem Coherent.page {f : ℕ} {write : Bool} (h : Coherent kroot s)
    (ht : Uix.translate s.kern.mem (frame s.kern.cr3) va.1 = some (f, write)) :
    f ∈ frames s.kern.mem s.kern.pml4 := by
  rw [← h.active, h.sound.spaces.translate_walk h.mem, Option.map_eq_some_iff] at ht
  obtain ⟨p, hwalk, hp⟩ := ht
  obtain ⟨rfl, -⟩ := Prod.mk.inj hp
  exact frame_mem_frames va.lower hwalk

theorem Coherent.walked {keep : Bool} {byte : Option (BitVec 8)} (h : Coherent kroot s)
    (hs : s.walked keep va byte = .ok t) : Coherent kroot t := by
  unfold TlbState.walked at hs
  cases htr : Uix.translate s.kern.mem (frame s.kern.cr3) va.1 with
  | none =>
    rw [htr] at hs
    exact h.userFault hs
  | some p =>
    obtain ⟨f, write⟩ := p
    simp only [htr] at hs
    cases htouch : s.touch va byte f write with
    | none =>
      rw [htouch] at hs
      exact h.userFault hs
    | some s' =>
      simp only [htouch] at hs
      obtain ⟨h', hcr3, -, hva⟩ := h.touch (h.page htr) htouch
      rw [← pure_ok.1 hs]
      split_ifs
      · refine ⟨h'.sound, h'.active, h'.known, h'.pages, forall_mem_cons.2 ⟨?_, h'.agrees⟩⟩
        simp only [hcr3]
        rw [hva, htr]
      · exact h'

theorem Coherent.cached {i : ℕ} {byte : Option (BitVec 8)} (h : Coherent kroot s) (hs : s.cached i va byte = .ok t) :
    Coherent kroot t := by
  unfold TlbState.cached at hs
  cases hi : s.tlb[i]? with
  | none =>
    rw [hi] at hs
    rw [← pure_ok.1 hs]
    exact h
  | some e =>
    simp only [hi] at hs
    split_ifs at hs
    · cases htouch : s.touch va byte e.frame e.write with
      | none =>
        rw [htouch] at hs
        exact h.userFault hs
      | some s' =>
        rw [htouch] at hs
        rw [← pure_ok.1 hs]
        exact (h.touch (h.page (h.agrees e (mem_of_getElem? hi))) htouch).1
    · rw [← pure_ok.1 hs]
      exact h

/-- `vmm_unmap` clears the entry and flushes, or finds no table and does nothing -/
theorem unmapPage_cases (s : TlbState) (a : U64) :
    (∃ g, At paging s.kern.mem (idx a) 3 s.kern.pml4 0 g ∧
      s.unmapPage a = .ok ({ s with kern := s.kern.set g (idx a 0) 0 }.invlpg a)) ∨ s.unmapPage a = .ok s := by
  obtain ⟨o, hrun, hend⟩ := s.kern.ptFor_look a
  cases o with
  | none =>
    right
    simp only [unmapPage, vmmUnmap, hrun, ok_bind, pure_eq_ok, Option.isSome_none, Bool.false_eq_true, if_false]
  | some g =>
    refine .inl ⟨g, hend, ?_⟩
    simp only [unmapPage, vmmUnmap, hrun, ok_bind, pure_eq_ok, Option.isSome_some, if_true]
    rfl

theorem Coherent.fork (h : Coherent kroot s) (hsafe : Safe s .fork) (hs : s.step .fork = .ok t) : Coherent kroot t := by
  obtain ⟨⟨pa, k⟩, hrun, ht⟩ := bind_ok.1 hs
  rw [pure_ok] at ht
  subst ht
  obtain ⟨d, S, hpa, hd, F⟩ := (vmmFork_spec (h.sound.spaces.spacePre h.mem)).of_eq hrun
  simp only at hpa F
  have hd40 := Pmm.lt_of_free hd h.sound.spaces.trees.phys
  have hfr : frame pa = d := by rw [hpa, frame_pageAddr hd40]
  have hroots : (⟨k, s.spaces ++ [pa], s.tlb⟩ : TlbState).roots = s.roots ++ [d] := by
    rw [roots, roots, map_append, map_singleton, hfr]
  have hS := (h.sound.forked h.mem F hsafe.2).perm (perm_append_singleton d s.roots).symm
  refine ⟨hroots ▸ hS, by rw [F.regs.1, F.regs.2.1, h.active], ?_, ?_, fun e he => ?_⟩
  · rw [F.regs.2.1]
    exact mem_append_left _ h.known
  · intro c hc
    rcases mem_append.1 hc with hc | hc
    · exact h.pages c hc
    · rw [mem_singleton.1 hc, hfr, hpa, Pmm.pageIdx_pageAddr (by omega)]
  -- the tables give the same page without the write bit, which the translation does not have
  · have hold := h.agrees e he
    rw [← h.active, h.sound.spaces.translate_walk h.mem, Option.map_eq_some_iff] at hold
    obtain ⟨p, hwalk, hp⟩ := hold
    obtain ⟨q, rfl, hu⟩ := h.sound.spaces.walk_plain h.mem e.page.lower hwalk
    obtain ⟨hframe, -⟩ := Prod.mk.inj hp
    have hlow : frame q < 2 ^ 20 := hsafe.2 _ (frame_mem_frames (p := (0, q)) e.page.lower hwalk)
    have hmem : s.kern.pml4 ∈ s.roots ++ [d] := mem_append_left _ h.mem
    simp only [F.regs.2.1]
    rw [← h.active, hS.spaces.translate_walk hmem, F.walk_eq (.inl rfl) e.page.lower, hwalk, Option.map_some,
      Option.map_some, hsafe.1 e he, ← hframe]
    simp only [Prod.map_apply, id_eq]
    rw [frame_marked fun _ => hlow, marked, if_pos hu]
    exact congrArg (fun w => some (frame q, w)) (write_cow q)

/-- **One step** keeps the invariant. -/
theorem Coherent.step {o : Op} (h : Coherent kroot s) (hsafe : Safe s o) (hs : s.step o = .ok t) :
    Coherent kroot t := by
  cases o with
  | access via keep va byte =>
    cases via with
    | none => exact h.walked hs
    | some i => exact h.cached hs
  | pageFault va err =>
    obtain ⟨⟨r, s'⟩, hrun, ht⟩ := bind_ok.1 hs
    rw [← pure_ok.1 ht]
    exact h.fault hrun
  | map va flags =>
    obtain ⟨⟨pa, k⟩, hrun, ht⟩ := bind_ok.1 hs
    rw [← pure_ok.1 ht]
    obtain ⟨p, S, -, hp, M⟩ := (mapPage_spec h.sound.spaces h.mem flags.2).of_eq hrun
    obtain ⟨hS, hO⟩ := h.sound.mapped M hp flags.2
    exact h.flushed hS ⟨M.regs.1, M.regs.2.1⟩ hO
  | mapKernel va flags =>
    obtain ⟨⟨pa, k⟩, hrun, ht⟩ := bind_ok.1 hs
    rw [← pure_ok.1 ht]
    obtain ⟨hS, hA, hregs⟩ := (h.sound.mapKernel h.mem va.2).of_eq hrun
    exact h.same hS hregs hA fun e he => (mem_filter.1 he).1
  | unmap va =>
    change s.unmapPage va.1 = .ok t at hs
    rcases s.unmapPage_cases va.1 with ⟨g, hat, hrun⟩ | hrun
    · rw [hrun, Except.ok.injEq] at hs
      obtain ⟨hS, hO⟩ := h.sound.unmapped h.mem hat
      exact hs ▸ h.flushed hS ⟨rfl, rfl⟩ hO
    · rw [hrun, Except.ok.injEq] at hs
      exact hs ▸ h
  | unmapKernel va =>
    change s.unmapPage va.1 = .ok t at hs
    rcases s.unmapPage_cases va.1 with ⟨g, hat, hrun⟩ | hrun
    · rw [hrun, Except.ok.injEq] at hs
      have hact : s.kern.pml4 ∈ kroot :: s.roots := mem_cons_of_mem _ h.mem
      obtain ⟨hS, hA⟩ := h.sound.slot hact (slotCleared (h.sound.halves.slotTree hact) va.2 hat)
      exact hs ▸ h.same hS ⟨rfl, rfl⟩ hA fun e he => (mem_filter.1 he).1
    · rw [hrun, Except.ok.injEq] at hs
      exact hs ▸ h
  | fork => exact h.fork hsafe hs
  | switch p =>
    simp only [TlbState.step] at hs
    cases hp : s.spaces[p]? with
    | none =>
      rw [hp] at hs
      rw [← pure_ok.1 hs]
      exact h
    | some cr3 =>
      rw [hp] at hs
      rw [← pure_ok.1 hs]
      have hmem := mem_of_getElem? hp
      exact ⟨h.sound.switch cr3, h.pages cr3 hmem, hmem, h.pages, fun e he => absurd he not_mem_nil⟩

end Step

/-- **Translations kept agree with the tables**, in every run from a coherent state whose forks find no writable
translation and no page from 4 GiB on. -/
theorem tlb_agrees (kroot : ℕ) (s t : TlbState) (ops : List Op) (hstart : Coherent kroot s)
    (hrun : Steps (fun s o t => Safe s o ∧ s.step o = .ok t) s ops t) : t.Agrees := by
  have h : Coherent kroot t := hrun.inv (fun s o t hs hstep => hs.step hstep.1 hstep.2) hstart
  exact h.agrees

/-! ## One page, one fork -/

/-- the kernel space with a new space beside it, which is active -/
theorem first_space {k k₁ : Kern} {kroot d : ℕ} (H : Halves k kroot []) (hact : k.pml4 = kroot)
    (C : SpaceCreated k k₁ d) : Coherent kroot ⟨k₁.vmmSwitch (pageAddr d), [pageAddr d], []⟩ := by
  have hd40 := Pmm.lt_of_free C.fresh H.user.phys
  have hfr : frame (pageAddr d) = d := frame_pageAddr hd40
  have hidx : pageIdx (pageAddr d) = d := Pmm.pageIdx_pageAddr (by omega)
  have hS : Sound kroot k₁ [d] := by
    refine ⟨(Spaces.nil H.user.pmm H.user.phys).created C, H.created (hact ▸ mem_cons_self) C, ?_⟩
    rw [forall_mem_singleton, frames, (empty_space C.lower).2.1]
    exact fun f hf => absurd hf not_mem_nil
  refine ⟨?_, hidx.trans hfr.symm, mem_cons_self, ?_, fun e he => absurd he not_mem_nil⟩
  · rw [roots, map_singleton, hfr]
    exact hS.switch _
  · exact forall_mem_singleton.2 (hidx.trans hfr.symm)

/-- the boot tables, and counts for the pages -/
def booted : Kern := SpaceSet.bootKern.setPmm (Pmm.fresh 64 6 (some fun _ => 0))

theorem booted_ok : booted.pmm.Ok := Pmm.fresh_ok _ (by decide) (by decide) (by decide) (by decide)

theorem booted_free : booted.pmm.freeSet = Finset.Ico 6 64 := Pmm.freeSet_fresh _ _ (by decide)

theorem booted_halves : Halves booted 1 [] := by
  have hnone : ∀ {P : ℕ → Prop}, ∀ r ∈ ([] : List ℕ), P r := fun r hr => absurd hr not_mem_nil
  have htab : slotTables booted.mem 1 = [1, 2] := by
    rw [← SpaceSet.bootMem_tables, slotTables, Format.tables, Format.tables, flatMap_singleton]
    exact congrArg (1 :: ·) (gather_single (mem_finRange _) (nodup_finRange 512) fun j hj =>
      SpaceSet.bootMem_absent hj).symm
  refine ⟨⟨booted_ok, by decide, nodup_nil, hnone, hnone⟩, hnone, ⟨booted_ok, by decide, ?_, ?_, ?_⟩, by decide,
    hnone, ?_⟩
  · rw [forest_slot, htab]
    decide
  · rw [forest_slot, htab]
    decide
  · rw [forest_slot, htab, booted_free]
    decide
  · exact fun g _ hc => absurd hc not_mem_nil

/-- one space, which is active, with the one page `f`, writable -/
structure Opened (s : TlbState) (cr3 : PAddr) (f : ℕ) : Prop where
  coherent : Coherent 1 s
  spaces : s.spaces = [cr3]
  active : s.kern.cr3 = cr3
  frames : Kern.frames s.kern.mem s.kern.pml4 = [f]
  page : Uix.translate s.kern.mem (frame cr3) Procs.startVa.1 = some (f, true)
  low : f < 64
  refs : s.kern.pmm.refcounts ≠ none
  len : s.kern.pmm.bitmapLen = 64
  free : 50 ≤ s.kern.pmm.freeSet.card

theorem tableFlags_user : UserFlags tableFlags := by decide

theorem opened : ∃ s₀ s cr3 f, Coherent 1 s₀ ∧ s₀.tlb = [] ∧
    s₀.step (.map Procs.startVa ⟨tableFlags, tableFlags_user⟩) = .ok s ∧ s.tlb = [] ∧ Opened s cr3 f := by
  have hcard : booted.pmm.freeSet.card = 58 := by
    rw [booted_free]
    rfl
  obtain ⟨⟨pa, k1⟩, hc, d, rfl, C⟩ := (vmmCreateSpace_spec booted_ok).exists_ok fun st hst => by
    rw [hst.2] at hcard
    exact absurd hcard (by decide)
  simp only at C
  have h0 := first_space booted_halves rfl C
  have hfree1 : 57 ≤ k1.pmm.freeSet.card := by
    rw [C.takes.free]
    have := Finset.le_card_sdiff {d} booted.pmm.freeSet
    rw [hcard, Finset.card_singleton] at this
    omega
  have hd40 := Pmm.lt_of_free C.fresh booted_halves.user.phys
  have hfr : frame (pageAddr d) = d := frame_pageAddr hd40
  have hpml4 : (k1.vmmSwitch (pageAddr d)).pml4 = d := Pmm.pageIdx_pageAddr (by omega)
  have hempty : paging.leaves k1.mem 3 d lowerHalf = [] := (empty_space C.lower).2.1
  obtain ⟨⟨pa, k2⟩, hmap, f, S, -, hf, M⟩ :=
    (@Kern.mapPage_spec _ _ Procs.startVa _ h0.sound.spaces h0.mem tableFlags_user).exists_ok fun st hst => by
      rcases hst with ⟨-, hlt⟩ | ⟨-, hw⟩
      · change k1.pmm.freeSet.card < 4 at hlt
        omega
      · refine hw (Option.eq_none_iff_forall_ne_some.2 fun q hq => ?_)
        have hmem := mem_leaves.2 ⟨_, Procs.startVa.lower, hq⟩
        simp only [hpml4] at hmem
        rw [show (k1.vmmSwitch (pageAddr d)).mem = k1.mem from rfl, hempty] at hmem
        exact not_mem_nil hmem
  simp only at hmap hf M
  have hstep : TlbState.step ⟨k1.vmmSwitch (pageAddr d), [pageAddr d], []⟩
      (.map Procs.startVa ⟨tableFlags, tableFlags_user⟩) = .ok ⟨k2, [pageAddr d], []⟩ := by
    simp only [TlbState.step, TlbState.mapPage, hmap, ok_bind, pure_eq_ok]
    rfl
  have h2 := Coherent.step (o := .map _ _) h0 trivial hstep
  have hf64 : f < 64 := by
    have := (Pmm.mem_freeSet.1 hf).1
    rw [show (k1.vmmSwitch (pageAddr d)).pmm = k1.pmm from rfl, C.takes.len] at this
    exact this
  have hfe : frame (pageEntry f tableFlags) = f := frame_pageEntry (by omega) tableFlags_user.1
  have hk2 : k2.pml4 = d := M.regs.1.trans hpml4
  refine ⟨_, _, pageAddr d, f, h0, rfl, hstep, rfl, ?_⟩
  constructor
  case coherent => exact h2
  case spaces => rfl
  case active => exact M.regs.2.1
  case frames =>
    obtain ⟨a, b, hold, hnew⟩ := M.leaves
    rw [hpml4, show (k1.vmmSwitch (pageAddr d)).mem = k1.mem from rfl, hempty] at hold
    obtain ⟨rfl, rfl⟩ := append_eq_nil_iff.1 hold.symm
    simp only [frames, M.regs.1]
    rw [hnew]
    simp only [nil_append, append_nil, map_singleton, hfe]
  case page =>
    have hmem : k2.pml4 ∈ TlbState.roots ⟨k2, [pageAddr d], []⟩ := h2.mem
    have hw : has (pageEntry f tableFlags) writeBit = true := pageEntry_has f (by decide)
    simp only [hfr]
    rw [← hk2, h2.sound.spaces.translate_walk hmem, M.regs.1, M.hit _ fun _ _ => rfl, Option.map_some, hfe, hw]
  case low => exact hf64
  case refs =>
    rw [M.takes.refs]
    change k1.pmm.refcounts ≠ none
    rw [C.takes.refs]
    exact Option.some_ne_none _
  case len => exact M.takes.len.trans C.takes.len
  case free =>
    rw [M.takes.free]
    have := Finset.le_card_sdiff S k1.pmm.freeSet
    have := M.few
    change 50 ≤ (k1.pmm.freeSet \ S).card
    omega

section OnePage

variable {s : TlbState} {cr3 : PAddr} {f : ℕ}

/-- the space writes its page and keeps the translation -/
theorem Opened.wrote (O : Opened s cr3 f) (b : BitVec 8) : ∃ t,
    s.step (.access none true Procs.startVa (some b)) = .ok t ∧ t.tlb = ⟨Procs.startVa, f, true⟩ :: s.tlb ∧
    Opened t cr3 f := by
  have hpage := O.page
  rw [← O.active] at hpage
  have hf : f ∈ Kern.frames s.kern.mem s.kern.pml4 := by
    rw [O.frames]
    exact mem_singleton_self f
  have htouch := (rfl : s.touch Procs.startVa (some b) f true = some _)
  obtain ⟨-, -, hA, hva⟩ := O.coherent.touch hf htouch
  have hstep : s.step (.access none true Procs.startVa (some b)) = .ok ⟨s.kern.storeByte (f * pageSize + 0) b, s.spaces,
      ⟨Procs.startVa, f, true⟩ :: s.tlb⟩ := by
    simp only [TlbState.step, TlbState.walked, hpage]
    rfl
  have ht := Coherent.step (o := .access _ _ _ _) O.coherent trivial hstep
  refine ⟨_, hstep, rfl, ht, O.spaces, O.active, ?_, ?_, O.low, O.refs, O.len, O.free⟩
  · exact (congrArg (List.map _) hA.leaves).trans O.frames
  · rw [O.active, O.page] at hva
    exact hva

/-- the space forks: the page is read-only for parent and child -/
theorem Opened.forked (O : Opened s cr3 f) : ∃ k d S, s.step .fork = .ok ⟨k, s.spaces ++ [pageAddr d], s.tlb⟩ ∧
    frame (pageAddr d) = d ∧ Sound 1 k (s.roots ++ [d]) ∧ SpaceForked s.kern k d S := by
  have hroom := O.coherent.sound.spaces.room O.coherent.mem
  have hlen := O.len
  have hfree := O.free
  obtain ⟨⟨pa, k⟩, hrun, d, S, rfl, hd, F⟩ :=
    (vmmFork_spec (O.coherent.sound.spaces.spacePre O.coherent.mem)).exists_ok fun st hst => by
      rcases hst.2 with hn | hlt
      · exact O.refs hn
      · omega
  have hd40 := Pmm.lt_of_free hd O.coherent.sound.spaces.trees.phys
  have hlow : ∀ f ∈ Kern.frames s.kern.mem s.kern.pml4, f < 2 ^ 20 := by
    rw [O.frames, forall_mem_singleton]
    exact O.low.trans (by decide)
  refine ⟨k, d, S, ?_, frame_pageAddr hd40, ?_, F⟩
  · simp only [TlbState.step, hrun, ok_bind, pure_eq_ok]
  · exact (O.coherent.sound.forked O.coherent.mem F hlow).perm (perm_append_singleton d s.roots).symm

/-- what the tables say of the page after the fork -/
theorem Opened.shared {k : Kern} {d r : ℕ} {S : Finset ℕ} {roots : List ℕ} (O : Opened s cr3 f)
    (F : SpaceForked s.kern k d S) (hS : Spaces k roots) (hmem : r ∈ roots) (hr : r = s.kern.pml4 ∨ r = d) :
    ∃ e, paging.walk k.mem 3 r (idx Procs.startVa.1) = some (0, e) ∧ frame e = f ∧
      Uix.translate k.mem r Procs.startVa.1 = some (f, false) := by
  have hpage := O.page
  rw [← O.active, ← O.coherent.active, O.coherent.sound.spaces.translate_walk O.coherent.mem,
    Option.map_eq_some_iff] at hpage
  obtain ⟨p, hwalk, hp⟩ := hpage
  obtain ⟨q, rfl, hu⟩ := O.coherent.sound.spaces.walk_plain O.coherent.mem Procs.startVa.lower hwalk
  obtain ⟨hq, -⟩ := Prod.mk.inj hp
  have hlow := O.low
  have hfr : frame (marked q) = f := by
    rw [frame_marked fun _ => by rw [hq]; omega, hq]
  have hw : paging.walk k.mem 3 r (idx Procs.startVa.1) = some (0, marked q) := by
    rw [F.walk_eq hr Procs.startVa.lower, hwalk]
    rfl
  refine ⟨_, hw, hfr, ?_⟩
  rw [hS.translate_walk hmem, hw, Option.map_some, hfr, marked, if_pos hu]
  exact congrArg (fun w => some (f, w)) (write_cow q)

end OnePage

/-- **A write after a fork**: a page is mapped and written, the space forks, and the parent writes again through the
translation it kept. There is no fault, and the child reads what the parent wrote. -/
theorem write_after_fork : ∃ s t cr3 d, Coherent 1 s ∧ s.tlb = [] ∧
    run step s [.map Procs.startVa ⟨tableFlags, tableFlags_user⟩, .access none true Procs.startVa (some 1), .fork,
      .access (some 0) true Procs.startVa (some 2)] = .ok t ∧ t.spaces = [cr3, pageAddr d] ∧ ¬ t.Agrees ∧
    userByte t.kern.mem d Procs.startVa.1 = some 2 := by
  obtain ⟨s₀, s₁, cr3, f, h0, htlb0, hmap, htlb1, O1⟩ := opened
  obtain ⟨s₂, hwrite, htlb2, O2⟩ := O1.wrote 1
  rw [htlb1] at htlb2
  obtain ⟨k, d, S, hfork, hfr, hS, F⟩ := O2.forked
  have hparent : s₂.kern.pml4 ∈ s₂.roots ++ [d] := List.mem_append_left _ O2.coherent.mem
  have hchild : d ∈ s₂.roots ++ [d] := List.mem_append_right _ (List.mem_singleton_self d)
  obtain ⟨e, hwalk, he, hread⟩ := O2.shared F hS.spaces hparent (.inl rfl)
  obtain ⟨e', hwalk', he', -⟩ := O2.shared F hS.spaces hchild (.inr rfl)
  obtain ⟨hS', hA⟩ := hS.stored hparent (Kern.frame_mem_frames (p := (0, e)) Procs.startVa.lower hwalk) 0 2
  rw [he] at hS' hA
  have hput : k.storeByte (f * pageSize + Procs.startVa.1.toNat % pageSize) 2 = k.putByte f 0 2 :=
    k.storeByte_page f 2 (by decide : 0 < pageSize)
  have hlast : TlbState.step ⟨k, s₂.spaces ++ [pageAddr d], s₂.tlb⟩ (.access (some 0) true Procs.startVa (some 2)) =
      .ok ⟨k.putByte f 0 2, s₂.spaces ++ [pageAddr d], s₂.tlb⟩ := by
    simp only [TlbState.step, TlbState.cached, htlb2, List.getElem?_cons_zero, if_true, TlbState.touch, hput]
    rfl
  refine ⟨s₀, _, cr3, d, h0, htlb0, run_cons_ok.2 ⟨_, hmap, run_cons_ok.2 ⟨_, hwrite, run_cons_ok.2 ⟨_, hfork,
    run_cons_ok.2 ⟨_, hlast, rfl⟩⟩⟩⟩, ?_, fun hagrees => ?_, ?_⟩
  · simp only [O2.spaces]
    rfl
  -- the translation kept is writable, and the tables give a page that is not
  · have hkept := hagrees ⟨Procs.startVa, f, true⟩ (by rw [htlb2]; exact List.mem_cons_self)
    have hcr3 : (k.putByte f 0 2).cr3 = s₂.kern.cr3 := F.regs.2.1
    simp only [hcr3] at hkept
    rw [← O2.coherent.active, hS'.spaces.translate_walk hparent, (hA _ hparent).walk Procs.startVa.lower,
      ← hS.spaces.translate_walk hparent, hread] at hkept
    simp at hkept
  · simp only
    rw [hS'.spaces.view hchild, (hA _ hchild).walk Procs.startVa.lower, hwalk', Option.map_some, he', Kern.putByte_self,
      getByte_setByte _ _ (by decide) (by decide), if_pos (by decide)]

/-- a run in which the translations are dropped before the fork, and the page is read after it -/
theorem read_after_fork : ∃ s t, Coherent 1 s ∧
    Steps (fun s o t => Safe s o ∧ s.step o = .ok t) s [.map Procs.startVa ⟨tableFlags, tableFlags_user⟩,
      .access none true Procs.startVa (some 1), .switch 0, .fork, .access none true Procs.startVa none] t ∧
    t.tlb ≠ [] ∧ t.Agrees := by
  obtain ⟨s₀, s₁, cr3, f, h0, -, hmap, -, O1⟩ := opened
  obtain ⟨s₂, hwrite, -, O2⟩ := O1.wrote 1
  have hswitch : s₂.step (.switch 0) = .ok ⟨s₂.kern.vmmSwitch cr3, s₂.spaces, []⟩ := by
    simp only [TlbState.step, O2.spaces, List.getElem?_cons_zero]
    rfl
  have hpml4 : (s₂.kern.vmmSwitch cr3).pml4 = s₂.kern.pml4 := by
    rw [O2.coherent.active, O2.active]
    exact O2.coherent.pages cr3 (by rw [O2.spaces]; exact List.mem_cons_self)
  have O3 : Opened ⟨s₂.kern.vmmSwitch cr3, s₂.spaces, []⟩ cr3 f := by
    refine ⟨Coherent.step (o := .switch 0) O2.coherent trivial hswitch, O2.spaces, rfl, ?_, O2.page, O2.low, O2.refs,
      O2.len, O2.free⟩
    simp only [hpml4]
    exact O2.frames
  obtain ⟨k, d, S, hfork, hfr, hS, F⟩ := O3.forked
  have hparent := List.mem_append_left [d] O3.coherent.mem
  obtain ⟨e, -, -, hread⟩ := O3.shared F hS.spaces hparent (.inl rfl)
  have hlast : TlbState.step ⟨k, s₂.spaces ++ [pageAddr d], []⟩ (.access none true Procs.startVa none) =
      .ok ⟨k, s₂.spaces ++ [pageAddr d], [⟨Procs.startVa, f, false⟩]⟩ := by
    have hcr3 : frame k.cr3 = (s₂.kern.vmmSwitch cr3).pml4 := by rw [F.regs.2.1, O3.coherent.active]
    simp only [TlbState.step, TlbState.walked, hcr3, hread]
    rfl
  have hsafe : Safe ⟨s₂.kern.vmmSwitch cr3, s₂.spaces, []⟩ .fork := by
    refine ⟨fun e he => absurd he List.not_mem_nil, ?_⟩
    rw [O3.frames, List.forall_mem_singleton]
    exact O3.low.trans (by decide)
  have hrun : Steps (fun s o t => Safe s o ∧ s.step o = .ok t) s₀ [.map Procs.startVa ⟨tableFlags, tableFlags_user⟩,
      .access none true Procs.startVa (some 1), .switch 0, .fork, .access none true Procs.startVa none] _ :=
    .cons ⟨trivial, hmap⟩ (.cons ⟨trivial, hwrite⟩ (.cons ⟨trivial, hswitch⟩ (.cons ⟨hsafe, hfork⟩
      (.cons ⟨trivial, hlast⟩ (.nil _)))))
  exact ⟨s₀, _, h0, hrun, by simp, tlb_agrees 1 s₀ _ _ h0 hrun⟩

end TlbState

end Uix
