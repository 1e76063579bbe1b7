/-
Translation caches. The processor keeps translations of the active space that it has used, and may use them again; it
drops one on `invlpg` of its page, and all of them when CR3 is loaded. `vmm_map`, `vmm_unmap` and `vmm_page_fault` flush
the page they change. `vmm_fork_user_space` makes every page of the parent read-only and flushes nothing.

- `TlbState.step`: an access of ring 3 or a call of `vmm.c`, with its flushes.
- `Agrees`: every translation kept is the one the tables give now.
- `Sound`: user halves, kernel half and pages of several spaces are in order; one lemma for each operation.
-/
import Uix.Memory.ForkIsolation
import Uix.Memory.KernelHalf

namespace Uix

open Machine Radix Radix.Format Bytes List
open Pmm (pageIdx pageAddr Takes Draws)

/-- a translation: a user page, its frame, and whether it may be written -/
structure TlbEntry where
  page : UserAddr
  frame : ℕ
  write : Bool
  deriving DecidableEq

/-- the kernel, the spaces that there are and the translations kept -/
structure TlbState where
  kern : Kern
  spaces : List PAddr
  tlb : List TlbEntry

/-- an address below entry 511, where the heap and the scratch pages are -/
abbrev SlotAddr := { va : U64 // idx va 3 = 511 }

/-- what the tables say of a user access: the frame, and whether it may be written -/
def translate (m : PhysMem) (root : ℕ) (va : U64) : Option (ℕ × Bool) :=
  match mmuWalk m 3 root (idx va) with
  | some t => if t.user then some (t.physAddr va / pageSize, t.write) else none
  | none => none

namespace TlbState

/-- what runs on the processor: an access of ring 3 (through a translation kept, or through the tables; a store, if
there is a byte), and the calls of `vmm.c` -/
inductive Op where
  | access (via : Option ℕ) (keep : Bool) (va : UserAddr) (byte : Option (BitVec 8))
  | pageFault (va err : U64)
  | map (va : UserAddr) (flags : { f : U64 // Kern.UserFlags f })
  | mapKernel (va : SlotAddr) (flags : U64)
  | unmap (va : UserAddr)
  | unmapKernel (va : SlotAddr)
  | fork
  | switch (p : ℕ)

def invlpg (s : TlbState) (va : U64) : TlbState :=
  { s with tlb := s.tlb.filter fun e => e.page.1.toNat / pageSize ≠ va.toNat / pageSize }

/-- `vmm_page_fault` with its flush -/
def fault (s : TlbState) (va err : U64) : Except Stop (ℤ × TlbState) := do
  let (r, k) ← s.kern.vmmPageFault va err
  pure (r, if r = 0 then { s with kern := k }.invlpg va else { s with kern := k })

/-- a fault of ring 3: `isr_dispatch` panics if it is not repaired -/
def userFault (s : TlbState) (va err : U64) : Except Stop TlbState := do
  let (r, s) ← s.fault va err
  if r ≠ 0 then .error (.panic .unhandled) else pure s

/-- an access with the translation `(f, write)` -/
def touch (s : TlbState) (va : UserAddr) (byte : Option (BitVec 8)) (f : ℕ) (write : Bool) : Option TlbState :=
  match byte with
  | none => some s
  | some b => if write then some { s with kern := s.kern.storeByte (f * pageSize + va.1.toNat % pageSize) b } else none

/-- an access through the tables, kept or not -/
def walked (s : TlbState) (keep : Bool) (va : UserAddr) (byte : Option (BitVec 8)) : Except Stop TlbState :=
  match translate s.kern.mem (frame s.kern.cr3) va.1 with
  | none => s.userFault va.1 (if byte.isSome then 6 else 4)
  | some (f, write) =>
    match s.touch va byte f write with
    | none => s.userFault va.1 7
    | some s => pure (if keep then { s with tlb := ⟨va, f, write⟩ :: s.tlb } else s)

/-- an access through translation `i`, if that is for the page -/
def cached (s : TlbState) (i : ℕ) (va : UserAddr) (byte : Option (BitVec 8)) : Except Stop TlbState :=
  match s.tlb[i]? with
  | none => pure s
  | some e =>
    if e.page.1.toNat / pageSize = va.1.toNat / pageSize then
      match s.touch va byte e.frame e.write with
      | none => s.userFault va.1 7
      | some s => pure s
    else pure s

/-- `p = pmm_alloc(); vmm_map(va, p, flags);` with its flush -/
def mapPage (s : TlbState) (va flags : U64) : Except Stop TlbState := do
  let (_, k) ← s.kern.mapPage va flags
  pure ({ s with kern := k }.invlpg va)

/-- `vmm_unmap` with its flush, if there is a table for the page -/
def unmapPage (s : TlbState) (va : U64) : Except Stop TlbState := do
  let (pt, _) ← s.kern.ptFor va false
  let k ← s.kern.vmmUnmap va
  pure (if pt.isSome then { s with kern := k }.invlpg va else { s with kern := k })

def step (s : TlbState) : Op → Except Stop TlbState
  | .access none keep va byte => s.walked keep va byte
  | .access (some i) _ va byte => s.cached i va byte
  | .pageFault va err => do
    let (_, s) ← s.fault va err
    pure s
  | .map va flags => s.mapPage va.1 flags.1
  | .mapKernel va flags => s.mapPage va.1 flags
  | .unmap va => s.unmapPage va.1
  | .unmapKernel va => s.unmapPage va.1
  | .fork => do
    let (pa, k) ← s.kern.vmmForkUserSpace
    pure { s with kern := k, spaces := s.spaces ++ [pa] }
  | .switch p =>
    match s.spaces[p]? with
    | none => pure s
    | some cr3 => pure { s with kern := s.kern.vmmSwitch cr3, tlb := [] }

/-- every translation kept is the one that the tables of the active space give now -/
def Agrees (s : TlbState) : Prop :=
  ∀ e ∈ s.tlb, translate s.kern.mem (frame s.kern.cr3) e.page.1 = some (e.frame, e.write)

/-- a fork finds no writable translation, and no page from 4 GiB on -/
def Safe (s : TlbState) : Op → Prop
  | .fork => (∀ e ∈ s.tlb, e.write = false) ∧ ∀ f ∈ Kern.frames s.kern.mem s.kern.pml4, f < 2 ^ 20
  | _ => True

def roots (s : TlbState) : List ℕ := s.spaces.map frame

end TlbState

namespace Kern

/-! ## Spaces in order -/

section Detach

variable {k : Kern} {roots : List ℕ} {x : ℕ → Fin 512} {r g : ℕ}

/-- **A leaf taken away.** -/
theorem Spaces.detach (h : Spaces k roots) (hr : r ∈ roots) (hx : x 3 ∈ lowerHalf) (hat : At paging k.mem x 3 r 0 g) :
    Spaces (k.set g (x 0) 0) roots ∧ ∀ r' ∈ roots, ∀ f ∈ frames (k.set g (x 0) 0).mem r', f ∈ frames k.mem r' := by
  have P := patched_set 0 h.trees lowerHalf_nodup hr hx hat
  have hsub : ∀ r' ∈ roots,
      (paging.leaves (k.set g (x 0) 0).mem 3 r' lowerHalf).Sublist (paging.leaves k.mem 3 r' lowerHalf) := by
    intro r' hr'
    by_cases hne : r' = r
    · subst hne
      obtain ⟨pre, post, h1, h2⟩ := P.leaves
      rw [set_mem_self, leafOf, if_neg (by rw [paging_present, zero_has]; decide)] at h2
      rw [h1, h2, append_nil, append_assoc]
      exact (sublist_append_right _ _).append_left pre
    · rw [P.others r' hr' hne]
  have hframes : ∀ r' ∈ roots, (frames (k.set g (x 0) 0).mem r').Sublist (frames k.mem r') :=
    fun r' hr' => (hsub r' hr').map _
  refine ⟨?_, fun r' hr' f hf => (hframes r' hr').subset hf⟩
  constructor
  case trees => exact h.trees.set P
  case plain => exact fun r' hr' p hp => h.plain r' hr' p ((hsub r' hr').subset hp)
  case links =>
    intro r' hr' e he
    rw [P.links r' hr'] at he
    exact h.links r' hr' e he
  case inside => exact fun r' hr' f hf => h.inside r' hr' f ((hframes r' hr').subset hf)
  case used => exact fun r' hr' f hf => h.used r' hr' f ((hframes r' hr').subset hf)
  case apart =>
    intro r' hr' f hf
    rw [P.forest]
    exact h.apart r' hr' f ((hframes r' hr').subset hf)
  case own => exact fun r' hr' => (h.own r' hr').sublist (hframes r' hr')
  case counted =>
    intro r1 hr1 r2 hr2 hne f hf1 hf2
    exact h.counted r1 hr1 r2 hr2 hne f ((hframes r1 hr1).subset hf1) ((hframes r2 hr2).subset hf2)

end Detach

/-- user halves and kernel half are in order, and the pages of the user halves hold no table of the kernel half -/
structure Sound (kroot : ℕ) (k : Kern) (roots : List ℕ) : Prop where
  spaces : Spaces k roots
  halves : Halves k kroot roots
  pages : ∀ r ∈ roots, ∀ f ∈ frames k.mem r, f ∉ slotTables k.mem kroot

section Sound

variable {k k' : Kern} {kroot r g d : ℕ} {roots roots' : List ℕ} {S : Finset ℕ} {va : UserAddr} {e : U64}

theorem Sound.slot_used (h : Sound kroot k roots) {g : ℕ} (hg : g ∈ slotTables k.mem kroot) : g ∉ k.pmm.freeSet :=
  h.halves.kernel.used g (forest_slot k.mem kroot ▸ hg)

/-- a step in the user halves: tables and pages come from what there was and from what was free -/
theorem Sound.user (h : Sound kroot k roots) (hS : Spaces k' roots') (hD : Draws k.pmm S k'.pmm)
    (hsame : ∀ g ∈ slotTables k.mem kroot, k'.mem g = k.mem g)
    (hupper : ∀ r ∈ roots', ∀ i ∈ upperHalf, k'.mem r i = k.mem kroot i)
    (hforest : ∀ g ∈ paging.forest k'.mem 3 roots' lowerHalf,
      g ∈ paging.forest k.mem 3 roots lowerHalf ∨ g ∈ k.pmm.freeSet)
    (hframes : ∀ r ∈ roots', ∀ f ∈ frames k'.mem r, (∃ r₀ ∈ roots, f ∈ frames k.mem r₀) ∨ f ∈ k.pmm.freeSet) :
    Sound kroot k' roots' := by
  have hA : Agree paging k.mem k'.mem 3 kroot [511] := .of_tables hsame
  refine ⟨hS, h.halves.keep hD hsame hS.trees (fun r hr p hp => (hS.plain r hr p hp).1) hupper hforest, ?_⟩
  intro r hr f hf hc
  rw [slotTables, hA.tables] at hc
  rcases hframes r hr f hf with ⟨r₀, hr₀, hf₀⟩ | hfree
  · exact h.pages r₀ hr₀ f hf₀ hc
  · exact h.slot_used hc hfree

/-- **A byte stored** in a user page. -/
theorem Sound.stored (h : Sound kroot k roots) (hr : r ∈ roots) {f : ℕ} (hf : f ∈ frames k.mem r) (o : ℕ)
    (b : BitVec 8) :
    Sound kroot (k.putByte f o b) roots ∧ ∀ r ∈ roots, Agree paging k.mem (k.putByte f o b).mem 3 r lowerHalf := by
  have htab := h.spaces.apart r hr f hf
  have hA : ∀ r ∈ roots, Agree paging k.mem (k.putByte f o b).mem 3 r lowerHalf := fun r hr => Agree.setPage htab _ hr
  refine ⟨h.user (h.spaces.setPage htab _) (.refl h.spaces.trees.pmm) ?_ ?_ ?_ ?_, hA⟩
  · intro g hg
    refine putByte_of_ne ?_ o b
    rintro rfl
    exact h.pages r hr g hf hg
  · intro r' hr' i hi
    rw [putByte_of_ne, h.halves.upper r' hr' i hi]
    rintro rfl
    exact htab (root_mem_forest hr')
  · intro g hg
    left
    rwa [show paging.forest (k.putByte f o b).mem 3 roots lowerHalf = paging.forest k.mem 3 roots lowerHalf from
      flatMap_congr fun r hr => (hA r hr).tables] at hg
  · intro r' hr' f' hf'
    rw [frames, (hA r' hr').leaves] at hf'
    exact .inl ⟨r', hr', hf'⟩

/-- a leaf written in a user half -/
theorem Sound.patched (h : Sound kroot k roots) (hr : r ∈ roots) {x : ℕ → Fin 512} (hx : x 3 ∈ lowerHalf)
    (hat : At paging k.mem x 3 r 0 g) (hS : Spaces (k.set g (x 0) e) roots)
    (hframes : ∀ r' ∈ roots, ∀ f ∈ frames (k.set g (x 0) e).mem r', (∃ r₀ ∈ roots, f ∈ frames k.mem r₀) ∨
    f ∈ k.pmm.freeSet) : Sound kroot (k.set g (x 0) e) roots := by
  have P := patched_set e h.spaces.trees lowerHalf_nodup hr hx hat
  have hg : g ∈ paging.forest k.mem 3 roots lowerHalf := mem_forest.2 ⟨r, hr, hat.mem_tables hx⟩
  refine h.user hS (.refl h.spaces.trees.pmm) ?_ ?_ ?_ hframes
  · intro g' hg'
    refine set_mem_of_ne _ _ _ ?_
    rintro rfl
    exact h.halves.apart g' hg' hg
  · intro r' hr' i hi
    rw [P.root r' hr' i (mem_upperHalf_iff.1 hi)]
    exact h.halves.upper r' hr' i hi
  · intro g' hg'
    rw [P.forest] at hg'
    exact .inl hg'

/-- the walks of the spaces outside one page of the active space are what they were -/
def OtherWalks (k k' : Kern) (roots : List ℕ) (va : U64) : Prop :=
  ∀ a : UserAddr, (∃ j ≤ 3, idx a.1 j ≠ idx va j) → ∀ r ∈ roots,
    paging.walk k'.mem 3 r (idx a.1) = paging.walk k.mem 3 r (idx a.1)

theorem OtherWalks.set (T : Trees k roots lowerHalf) (hr : r ∈ roots) (hat : At paging k.mem (idx va.1) 3 r 0 g) :
    OtherWalks k (k.set g (idx va.1 0) e) roots va.1 := fun a hne r' hr' =>
  (patched_set e T lowerHalf_nodup hr va.lower hat).miss r' hr' _ a.lower (.inr hne)

/-- **`vmm_page_fault`** that copies the page -/
theorem Sound.copied {t : ℕ} (h : Sound kroot k roots) (hr : k.pml4 ∈ roots) (L : CowLeaf k va.1 g e)
    (C : CowCopied k k' va.1 g e t) : Sound kroot k' roots ∧ OtherWalks k k' roots va.1 := by
  obtain ⟨hA, h1⟩ := h.spaces.copying C
  have ht40 := Pmm.lt_of_free C.fresh h.spaces.trees.phys
  have hpage : ∀ f, f ≠ t → ((k.setPmm k'.pmm).copyPage t (frame e)).mem f = k.mem f :=
    fun f hf => Function.update_of_ne hf _ _
  have hforest : paging.forest ((k.setPmm k'.pmm).copyPage t (frame e)).mem 3 roots lowerHalf =
      paging.forest k.mem 3 roots lowerHalf := flatMap_congr fun r hr => (hA r hr).tables
  have hat := L.path.agree va.lower (hA _ hr)
  have P := patched_set (copiedEntry t e) h1.trees lowerHalf_nodup hr va.lower hat
  have hg : g ∈ paging.forest k.mem 3 roots lowerHalf := mem_forest.2 ⟨_, hr, L.path.mem_tables va.lower⟩
  have hS := h.spaces.copied hr L C
  have hD := C.draws
  rw [C.state] at hS hD ⊢
  refine ⟨h.user hS hD ?_ ?_ ?_ ?_, fun a hne r hr' => ?_⟩
  · intro g' hg'
    rw [set_mem_of_ne, hpage]
    · rintro rfl
      exact h.slot_used hg' C.fresh
    · rintro rfl
      exact h.halves.apart g' hg' hg
  · intro r hr' i hi
    rw [P.root r hr' i (mem_upperHalf_iff.1 hi), hpage, h.halves.upper r hr' i hi]
    rintro rfl
    exact h.spaces.trees.used r (root_mem_forest hr') C.fresh
  · intro g' hg'
    rw [P.forest, hforest] at hg'
    exact .inl hg'
  · intro r hr' f hf
    rcases mem_frames_written P hr' hf with hf | ⟨-, rfl⟩
    · rw [frames, (hA r hr').leaves] at hf
      exact .inl ⟨r, hr', hf⟩
    · rw [frame_copiedEntry ht40]
      exact .inr C.fresh
  · rw [P.miss r hr' _ a.lower (.inr hne), (hA r hr').walk a.lower]

/-- **`vmm_page_fault`** that makes the page writable -/
theorem Sound.unmarked (h : Sound kroot k roots) (hr : k.pml4 ∈ roots) (L : CowLeaf k va.1 g e)
    (C : CowUnmarked k k' va.1 g e) : Sound kroot k' roots ∧ OtherWalks k k' roots va.1 := by
  have hS := h.spaces.unmarked hr L C
  rw [C.state] at hS ⊢
  refine ⟨h.patched hr va.lower L.path hS fun r hr' f hf => ?_, .set h.spaces.trees hr L.path⟩
  rcases mem_frames_written (patched_set _ h.spaces.trees lowerHalf_nodup hr va.lower L.path) hr'
    hf with hf | ⟨rfl, rfl⟩
  · exact .inl ⟨r, hr', hf⟩
  · rw [frame_unmarkedEntry]
    exact .inl ⟨_, hr, frame_mem_frames (p := (0, e)) va.lower L.walk⟩

/-- **`vmm_map`** of a new page in the user half -/
theorem Sound.mapped {flags : U64} {t : ℕ} (h : Sound kroot k roots) (M : PageMapped k k' roots va flags t S)
    (ht : t ∈ k.pmm.freeSet) (hf : UserFlags flags) : Sound kroot k' roots ∧ OtherWalks k k' roots va.1 := by
  have ht40 := Pmm.lt_of_free ht h.spaces.trees.phys
  refine ⟨h.user M.spaces M.takes.draws ?_ ?_ ?_ ?_, fun a hne r hr => M.miss r hr _ a.lower (.inr hne)⟩
  · exact fun g hg => M.outside g (M.takes.draws.notMem (h.slot_used hg)) (h.halves.apart g hg)
  · intro r hr i hi
    rw [M.upper r hr i (mem_upperHalf_iff.1 hi)]
    exact h.halves.upper r hr i hi
  · exact fun g hg => (M.sub g hg).imp_right fun hS => M.takes.sub hS
  · intro r hr f hff
    by_cases hne : r = k.pml4
    · obtain ⟨a, b, hold, hnew⟩ := M.leaves
      rw [hne, frames, hnew, map_append, map_append, mem_append, mem_append] at hff
      rcases hff with (hff | hff) | hff
      · refine .inl ⟨_, hne ▸ hr, ?_⟩
        rw [frames, hold, map_append]
        exact mem_append_left _ hff
      · right
        rw [map_singleton, mem_singleton] at hff
        rw [hff, frame_pageEntry ht40 hf.1]
        exact ht
      · refine .inl ⟨_, hne ▸ hr, ?_⟩
        rw [frames, hold, map_append]
        exact mem_append_right _ hff
    · rw [frames, M.others r hr hne] at hff
      exact .inl ⟨r, hr, hff⟩

/-- **`vmm_unmap`** in the user half -/
theorem Sound.unmapped (h : Sound kroot k roots) (hr : r ∈ roots) (hat : At paging k.mem (idx va.1) 3 r 0 g) :
    Sound kroot (k.set g (idx va.1 0) 0) roots ∧ OtherWalks k (k.set g (idx va.1 0) 0) roots va.1 := by
  obtain ⟨hS, hframes⟩ := h.spaces.detach hr va.lower hat
  exact ⟨h.patched hr va.lower hat hS fun r' hr' f hf => .inl ⟨r', hr', hframes r' hr' f hf⟩,
    .set h.spaces.trees hr hat⟩

/-- **`vmm_fork_user_space`** of pages below 4 GiB -/
theorem Sound.forked (h : Sound kroot k roots) (hr : k.pml4 ∈ roots) (F : SpaceForked k k' d S)
    (hlow : ∀ f ∈ frames k.mem k.pml4, f < 2 ^ 20) : Sound kroot k' (d :: roots) := by
  have hS := h.spaces.forked hr F hlow
  have H := h.halves.forked hr F
  have hsame : ∀ g ∈ slotTables k.mem kroot, k'.mem g = k.mem g := fun g hg =>
    F.outside g (F.draws.notMem (h.slot_used hg)) fun hc => h.halves.apart g hg (mem_forest.2 ⟨_, hr, hc⟩)
  have hA : Agree paging k.mem k'.mem 3 kroot [511] := .of_tables hsame
  refine ⟨hS, H, fun r hr' f hf hc => ?_⟩
  rw [slotTables, hA.tables] at hc
  by_cases hrd : r = k.pml4 ∨ r = d
  · rw [F.frames_eq hlow hrd] at hf
    exact h.pages _ hr f hf hc
  · rw [not_or] at hrd
    have hr0 : r ∈ roots := (mem_cons.1 hr').resolve_left hrd.2
    rw [frames, (h.spaces.trees.forked_other hr F hr0 hrd.1).leaves] at hf
    exact h.pages r hr0 f hf hc

theorem Sound.switch (h : Sound kroot k roots) (pa : PAddr) : Sound kroot (k.vmmSwitch pa) roots :=
  ⟨h.spaces.switch pa, h.halves.regs (.refl h.spaces.trees.pmm) rfl, h.pages⟩

/-- **`vmm_map` and `vmm_unmap` below entry 511** leave the user halves alone. -/
theorem Sound.slot (h : Sound kroot k roots) (hr : r ∈ kroot :: roots) (G : SlotGrown k k' r S) :
    Sound kroot k' roots ∧ ∀ r ∈ roots, Agree paging k.mem k'.mem 3 r lowerHalf := by
  have hcounts : k'.pmm.counts = k.pmm.counts := by rw [Pmm.counts, G.takes.refs, Pmm.counts]
  have hA : ∀ r ∈ roots, Agree paging k.mem k'.mem 3 r lowerHalf := fun r' hr' =>
    .of_tables fun g hg => h.halves.heap_user hr G g (mem_forest.2 ⟨r', hr', hg⟩)
  refine ⟨⟨h.spaces.agree hA G.takes.draws fun f hf => hcounts ▸ hf, h.halves.heap hr G, fun r' hr' f hf hc => ?_⟩, hA⟩
  rw [frames, (hA r' hr').leaves] at hf
  rcases mem_slotTables.1 hc with rfl | hc
  · exact h.pages r' hr' f hf mem_cons_self
  · rcases h.halves.heap_sub hr G f hc with hc | hc
    · exact h.pages r' hr' f hf (mem_slotTables.2 (.inr hc))
    · exact h.spaces.used r' hr' f hf (G.takes.sub hc)

end Sound

end Kern

end Uix
