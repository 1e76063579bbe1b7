/-
What the parts of `do_execve` and `user_task_create` do, in the presence of other spaces and of the file buffer.

- `Live`: the spaces are in order, and neither page 0 nor a page of the file buffer belongs to them.
- `findProgram_spec`: looking the program up touches the file buffer only.
- `Live.newSpace`: the old space is given back and an empty one takes its place; the other spaces are in order if no
  page of theirs was given back.
- `loadImage_filling`, `userTaskImage_spec`: an image in the user half fills the new space, and nothing else.
- `doExecve_live`: the whole call beside other spaces.
-/
import Uix.Cpu.ElfSpec
import Uix.Cpu.Teardown
import Uix.Fs.UixfsSpec

namespace Uix

open Machine Radix Radix.Format List Kern
open Pmm (pageIdx pageAddr Takes)

/-- the pages given back between two states are all of the kind `P` -/
def Pmm.Frees (p p' : Pmm) (P : ℕ → Prop) : Prop := ∃ l, p'.freed = l ++ p.freed ∧ ∀ g ∈ l, P g

section Frees

variable {p p' p'' : Pmm} {P Q : ℕ → Prop}

theorem Pmm.Frees.none (h : p'.freed = p.freed) : p.Frees p' P := ⟨[], h, fun _ hg => absurd hg not_mem_nil⟩

theorem Pmm.Frees.mono (h : p.Frees p' P) (hPQ : ∀ g, P g → Q g) : p.Frees p' Q := by
  obtain ⟨l, hl, hmem⟩ := h
  exact ⟨l, hl, fun g hg => hPQ g (hmem g hg)⟩

theorem Pmm.Frees.trans (h : p.Frees p' P) (h' : p'.Frees p'' P) : p.Frees p'' P := by
  obtain ⟨l, hl, hmem⟩ := h
  obtain ⟨l', hl', hmem'⟩ := h'
  refine ⟨l' ++ l, by rw [hl', hl, append_assoc], fun g hg => ?_⟩
  exact (mem_append.1 hg).elim (hmem' g) (hmem g)

end Frees

/-! ## Live spaces -/

structure Live (fs : Uixfs) (k : Kern) (roots : List ℕ) : Prop where
  spaces : k.Spaces roots
  held : fs.Held k
  tables : ∀ g ∈ paging.forest k.mem 3 roots lowerHalf, g ≠ 0 ∧ g ∉ fs.bufPages
  pages : ∀ r ∈ roots, ∀ f ∈ Kern.frames k.mem r, f ≠ 0 ∧ f ∉ fs.bufPages

/-- the pages from which the spaces and the file buffer are made -/
def Pool (fs : Uixfs) (k : Kern) (roots : List ℕ) (f : ℕ) : Prop :=
  f ∈ k.pmm.freeSet ∨ f ∈ fs.bufPages ∨ f ∈ paging.forest k.mem 3 roots lowerHalf ∨ ∃ r ∈ roots, f ∈ Kern.frames k.mem r

/-- a step from live spaces to live spaces that uses no page from outside the pool -/
structure Lives (fs : Uixfs) (k : Kern) (roots : List ℕ) (fs' : Uixfs) (k' : Kern) (roots' : List ℕ) : Prop where
  live : Live fs' k' roots'
  pool : ∀ f, Pool fs' k' roots' f → Pool fs k roots f
  mem : ∀ f, ¬ Pool fs k roots f → k'.mem f = k.mem f

section Live

variable {fs fs' fs'' : Uixfs} {k k' k'' : Kern} {roots roots' roots'' : List ℕ} {r d : ℕ} {S : Finset ℕ}

theorem Lives.refl (L : Live fs k roots) : Lives fs k roots fs k roots := ⟨L, fun _ hf => hf, fun _ _ => rfl⟩

theorem Lives.trans (h : Lives fs k roots fs' k' roots') (h' : Lives fs' k' roots' fs'' k'' roots'') :
    Lives fs k roots fs'' k'' roots'' :=
  ⟨h'.live, fun f hf => h.pool f (h'.pool f hf), fun f hf => (h'.mem f fun hc => hf (h.pool f hc)).trans (h.mem f hf)⟩

section Next

variable (L : Live fs k roots) (h : k'.Spaces roots') (hlen : k'.pmm.bitmapLen = k.pmm.bitmapLen)
  (hfree : ∀ g, g ∈ k'.pmm.freeSet → g ∈ k.pmm.freeSet)
  (htables : ∀ g ∈ paging.forest k'.mem 3 roots' lowerHalf, g ∈ paging.forest k.mem 3 roots lowerHalf ∨
    g ∈ k.pmm.freeSet)
  (hpages : ∀ r ∈ roots', ∀ f ∈ frames k'.mem r, (∃ r' ∈ roots, f ∈ frames k.mem r') ∨ f ∈ k.pmm.freeSet)
include L h hlen hfree htables hpages

/-- nothing is given back: new tables and pages were free -/
theorem Live.next : Live fs k' roots' ∧ ∀ f, Pool fs k' roots' f → Pool fs k roots f := by
  have hnew : ∀ g ∈ k.pmm.freeSet, g ≠ 0 ∧ g ∉ fs.bufPages := fun g hg =>
    ⟨fun h0 => L.spaces.trees.pmm.zero (h0 ▸ hg), fun hc => L.held.used g hc hg⟩
  refine ⟨⟨h,
    ⟨L.held.addr, fun j hj => hlen ▸ L.held.inside j hj, fun j hj hc => L.held.used j hj (hfree j hc)⟩, ?_, ?_⟩, ?_⟩
  · exact fun g hg => (htables g hg).elim (L.tables g) (hnew g)
  · intro r hr f hf
    rcases hpages r hr f hf with ⟨r', hr', hf'⟩ | hf'
    · exact L.pages r' hr' f hf'
    · exact hnew f hf'
  · rintro f (hf | hf | hf | ⟨r, hr, hf⟩)
    · exact .inl (hfree f hf)
    · exact .inr (.inl hf)
    · exact (htables f hf).elim (fun hf => .inr (.inr (.inl hf))) .inl
    · exact (hpages r hr f hf).elim (fun hf => .inr (.inr (.inr hf))) .inl

theorem Live.lives (hmem : ∀ f, ¬ Pool fs k roots f → k'.mem f = k.mem f) : Lives fs k roots fs k' roots' :=
  have hnext := L.next h hlen hfree htables hpages
  ⟨hnext.1, hnext.2, hmem⟩

end Next

/-- some of the spaces -/
theorem Live.subset (L : Live fs k roots) (h : k.Spaces roots') (hs : roots' ⊆ roots) :
    Lives fs k roots fs k roots' := by
  refine L.lives h rfl (fun _ hg => hg) (fun g hg => .inl ?_) (fun r hr f hf => .inl ⟨r, hs hr, hf⟩) fun _ _ => rfl
  obtain ⟨r, hr, hg⟩ := mem_forest.1 hg
  exact mem_forest.2 ⟨r, hs hr, hg⟩

theorem Live.sublist (L : Live fs k roots) (hs : roots'.Sublist roots) : Lives fs k roots fs k roots' :=
  L.subset (L.spaces.sublist hs) hs.subset

theorem Live.perm (L : Live fs k roots) (hp : roots.Perm roots') : Lives fs k roots fs k roots' :=
  L.subset (L.spaces.perm hp) hp.symm.subset

/-- the registers do not matter -/
theorem Live.regs (L : Live fs k roots) (hmem : k'.mem = k.mem) (hpmm : k'.pmm = k.pmm) : Live fs k' roots := by
  refine (L.lives (L.spaces.regs hmem hpmm) (by rw [hpmm]) (fun g hg => hpmm ▸ hg) (fun g hg => .inl (hmem ▸ hg))
    (fun r hr f hf => .inl ⟨r, hr, hmem ▸ hf⟩) fun f _ => by rw [hmem]).live

theorem Live.switch (L : Live fs k roots) (pa : PAddr) : Live fs (k.vmmSwitch pa) roots := L.regs rfl rfl

/-- a page in use that is not in the buffer is as it was after a file is read -/
theorem Uixfs.Buffered.untouched (B : fs.Buffered fs' k k') {g : ℕ} (hg : g ∉ k.pmm.freeSet) (hb : g ∉ fs.bufPages) :
    g ∉ fs'.bufPages ∧ g ∉ k'.pmm.freeSet ∧ k'.mem g = k.mem g := by
  have hnew : g ∉ fs'.bufPages := fun hc => (B.sub g hc).elim hg hb
  exact ⟨hnew, fun hc => ((B.free g).1 hc).1.elim hg hb, B.mem g hnew⟩

section Buffered

variable (L : Live fs k roots) (B : fs.Buffered fs' k k')
include L B

theorem Live.untouched {g : ℕ} (hg : g ∈ paging.forest k.mem 3 roots lowerHalf ∨ ∃ r ∈ roots, g ∈ frames k.mem r) :
    g ∉ fs'.bufPages ∧ g ∉ k'.pmm.freeSet ∧ k'.mem g = k.mem g := by
  rcases hg with hg | ⟨r, hr, hg⟩
  · exact B.untouched (L.spaces.trees.used g hg) (L.tables g hg).2
  · exact B.untouched (L.spaces.used r hr g hg) (L.pages r hr g hg).2

theorem Live.buffered_agree (hr : r ∈ roots) : Agree paging k.mem k'.mem 3 r lowerHalf :=
  Agree.of_tables fun _ hg => (L.untouched B (.inl (mem_forest.2 ⟨r, hr, hg⟩))).2.2

/-- **A file read** leaves the spaces as they are. -/
theorem Live.buffered : Lives fs k roots fs' k' roots := by
  have hA : ∀ r ∈ roots, Agree paging k.mem k'.mem 3 r lowerHalf := fun r hr => L.buffered_agree B hr
  have hcounts : k'.pmm.counts = k.pmm.counts := by rw [Pmm.counts, B.refs, Pmm.counts]
  have hforest : paging.forest k'.mem 3 roots lowerHalf = paging.forest k.mem 3 roots lowerHalf :=
    flatMap_congr fun r hr => (hA r hr).tables
  have hframes : ∀ r ∈ roots, frames k'.mem r = frames k.mem r := fun r hr => by rw [frames, (hA r hr).leaves, frames]
  refine ⟨?_, ?_, fun f hf => B.mem f fun hc => hf ((B.sub f hc).elim .inl fun hb => .inr (.inl hb))⟩
  on_goal 2 =>
    rintro f (hf | hf | hf | ⟨r, hr, hf⟩)
    · exact ((B.free f).1 hf).1.elim .inl fun hb => .inr (.inl hb)
    · exact (B.sub f hf).elim .inl fun hb => .inr (.inl hb)
    · exact .inr (.inr (.inl (hforest ▸ hf)))
    · exact .inr (.inr (.inr ⟨r, hr, hframes r hr ▸ hf⟩))
  constructor
  case spaces =>
    refine L.spaces.retained hA B.ok B.len (fun g hg => (L.untouched B (.inl hg)).2.1) ?_ ?_
    · exact fun r hr f hf => (L.untouched B (.inr ⟨r, hr, hf⟩)).2.1
    · rw [hcounts]
      exact L.spaces.counted
  case held => exact B.held
  case tables =>
    intro g hg
    rw [hforest] at hg
    exact ⟨(L.tables g hg).1, (L.untouched B (.inl hg)).1⟩
  case pages =>
    intro r hr f hf
    rw [hframes r hr] at hf
    exact ⟨(L.pages r hr f hf).1, (L.untouched B (.inr ⟨r, hr, hf⟩)).1⟩

/-- what is read in the spaces stays the same -/
theorem Live.buffered_view (hr : r ∈ roots) (va : UserAddr) : userByte k'.mem r va.1 = userByte k.mem r va.1 :=
  L.spaces.view_agree (L.buffered B).live.spaces hr (L.buffered_agree B hr)
    (fun _ hf => (L.untouched B (.inr ⟨r, hr, hf⟩)).2.2) va

end Buffered

/-- **A space given back.** -/
theorem Live.torn (L : Live fs k (r :: roots)) (hmem : k'.mem = k.mem)
    (F : Freed k.pmm (paging.tables k.mem 3 r lowerHalf) (frames k.mem r) k'.pmm)
    (hshared : ∀ r' ∈ roots, ∀ f ∈ frames k.mem r, f ∈ frames k.mem r' → 2 ≤ k.pmm.counts f) :
    Lives fs k (r :: roots) fs k' roots := by
  have hcons : paging.forest k.mem 3 (r :: roots) lowerHalf =
      paging.tables k.mem 3 r lowerHalf ++ paging.forest k.mem 3 roots lowerHalf := flatMap_cons
  refine ⟨?_, ?_, fun f _ => by rw [hmem]⟩
  on_goal 2 =>
    rintro f (hf | hf | hf | ⟨r', hr', hf⟩)
    · rcases (F.free f).1 hf with hf | hf | ⟨hf, -⟩
      · exact .inl hf
      · exact .inr (.inr (.inl (hcons ▸ mem_append_left _ hf)))
      · exact .inr (.inr (.inr ⟨r, mem_cons_self, hf⟩))
    · exact .inr (.inl hf)
    · exact .inr (.inr (.inl (hcons ▸ mem_append_right _ (hmem ▸ hf))))
    · exact .inr (.inr (.inr ⟨r', mem_cons_of_mem _ hr', hmem ▸ hf⟩))
  constructor
  case spaces => exact L.spaces.torn hmem F hshared
  case held =>
    refine ⟨L.held.addr, fun j hj => F.len ▸ L.held.inside j hj, fun j hj hc => ?_⟩
    rcases (F.free j).1 hc with hc | hc | ⟨hc, -⟩
    · exact L.held.used j hj hc
    · exact (L.tables j (hcons ▸ mem_append_left _ hc)).2 hj
    · exact (L.pages r mem_cons_self j hc).2 hj
  case tables =>
    intro g hg
    rw [hmem] at hg
    exact L.tables g (hcons ▸ mem_append_right _ hg)
  case pages =>
    intro r' hr' f hf
    rw [hmem] at hf
    exact L.pages r' (mem_cons_of_mem _ hr') f hf

/-- **An empty space.** -/
theorem Live.created (L : Live fs k roots) (C : SpaceCreated k k' d) :
    Lives fs k roots fs k' (d :: roots) := by
  have hA : ∀ r ∈ roots, Agree paging k.mem k'.mem 3 r lowerHalf := fun r hr => L.spaces.trees.created_agree C hr
  have hcons : paging.forest k'.mem 3 (d :: roots) lowerHalf = [d] ++ paging.forest k.mem 3 roots lowerHalf := by
    refine flatMap_cons.trans (congrArg₂ _ (empty_space C.lower).1 ?_)
    exact flatMap_congr fun r hr => (hA r hr).tables
  refine L.lives (L.spaces.created C) C.takes.len (fun g hg => ?_) (fun g hg => ?_) (fun r hr f hf => ?_)
    fun f hf => C.other f fun hc => hf (.inl (hc ▸ C.fresh))
  · rw [C.takes.free] at hg
    exact (Finset.mem_sdiff.1 hg).1
  · rw [hcons, mem_append, mem_singleton] at hg
    exact hg.elim (fun hc => .inr (hc ▸ C.fresh)) .inl
  · rcases mem_cons.1 hr with rfl | hr
    · rw [frames, (empty_space C.lower).2.1] at hf
      exact absurd hf not_mem_nil
    · rw [frames, (hA r hr).leaves] at hf
      exact .inl ⟨r, hr, hf⟩

/-- **A space filled.** -/
theorem Live.filled (L : Live fs k (k.pml4 :: roots)) (F : Filling k k' S) :
    Lives fs k (k.pml4 :: roots) fs k' (k.pml4 :: roots) := by
  obtain ⟨h, hA⟩ := F.beside L.spaces
  have hroot : k.pml4 ∈ paging.forest k.mem 3 (k.pml4 :: roots) lowerHalf := root_mem_forest mem_cons_self
  refine L.lives h F.takes.len (fun g hg => ?_) (fun g hg => ?_) (fun r hr f hf => ?_) fun f hf =>
    F.outside f (fun hc => hf (.inl (F.takes.sub hc))) fun hc => hf (.inr (.inr (.inl (hc ▸ hroot))))
  · rw [F.takes.free] at hg
    exact (Finset.mem_sdiff.1 hg).1
  · obtain ⟨r, hr, hg⟩ := mem_forest.1 hg
    rcases mem_cons.1 hr with rfl | hr
    · exact (F.tables g hg).elim (fun hc => .inl (hc ▸ hroot)) fun hS => .inr (F.takes.sub hS)
    · rw [(hA r hr).tables] at hg
      exact .inl (mem_forest.2 ⟨r, mem_cons_of_mem _ hr, hg⟩)
  · rcases mem_cons.1 hr with rfl | hr
    · exact .inr (F.takes.sub (F.pages f hf))
    · rw [frames, (hA r hr).leaves] at hf
      exact .inl ⟨r, mem_cons_of_mem _ hr, hf⟩

end Live

/-! ## Images -/

/-- an image that stays in the user half -/
structure UserImage (img : Image) : Prop where
  segments : Elf.UserSegments img
  size : img.len.toNat + 0x400000 ≤ 2 ^ 47

namespace Kern

section Fill

variable {k₀ k : Kern} {S : Finset ℕ} {img : Image}

theorem codeAddr {off : ℕ} (h : off + 0x400000 < 2 ^ 47) :
    (userCodeBase + BitVec.ofNat 64 off).toNat = off + 0x400000 := by
  rw [BitVec.toNat_add, BitVec.toNat_ofNat, userCodeBase, BitVec.toNat_ofNat]
  omega

theorem mem_flatOffsets {len : U64} {off : ℕ} (h : off ∈ flatOffsets len) : off < len.toNat := by
  obtain ⟨i, hi, rfl⟩ := mem_map.1 h
  rw [mem_range, pageSize] at hi
  rw [pageSize]
  omega

theorem mapPage_filling {va : U64} (F : Filling k₀ k S) (hva : va < userEnd) :
    Meets (k.mapPage va pageFlags) NotFree fun r => ∃ S', Filling k₀ r.2 S' := by
  have hspec := @Filling.mapPage_spec k₀ k S ⟨va, hva⟩ _ F pageFlags_user pageFlags_write
  refine hspec.mono (fun _ hst => MapStop.notFree hst) ?_
  rintro ⟨pa, k'⟩ ⟨t, S', F', -, -⟩
  exact ⟨_, F'⟩

theorem loadFlat_filling (hsize : img.len.toNat + 0x400000 ≤ 2 ^ 47) (hcr3 : frame k₀.cr3 = k₀.pml4)
    (F : Filling k₀ k S) : Meets (loadFlat img k) NotFree fun k' => ∃ S', Filling k₀ k' S' := by
  refine foldlM_keeps (fun k => ∃ S', Filling k₀ k S') ?_ ⟨S, F⟩
  rintro k1 off hoff ⟨S1, F1⟩
  have hlt := mem_flatOffsets hoff
  have haddr := @codeAddr off (by omega)
  have hva : userCodeBase + BitVec.ofNat 64 off < userEnd := by
    rw [BitVec.lt_def, haddr, show userEnd.toNat = 2 ^ 47 from rfl]
    omega
  refine (mapPage_filling F1 hva).bind ?_
  rintro ⟨pa, k2⟩ ⟨S2, F2⟩
  refine (Image.copyIn_spec F2 hcr3 (by omega)).notFree.mono (fun _ hst => hst) ?_
  rintro k3 ⟨F3, -⟩
  exact ⟨S2, F3⟩

theorem stackPages_user : ∀ va ∈ stackPages, va < userEnd := by
  intro va hva
  obtain ⟨i, hi, rfl⟩ := mem_map.1 hva
  rw [mem_range] at hi
  rw [BitVec.lt_def, BitVec.toNat_sub, BitVec.toNat_ofNat, show userEnd.toNat = 2 ^ 47 from rfl, pageSize,
    show userStackTop.toNat = 0x800000 from rfl]
  omega

theorem mapStack_filling (F : Filling k₀ k S) : Meets (mapStack k) NotFree fun k' => ∃ S', Filling k₀ k' S' := by
  refine foldlM_keeps (fun k => ∃ S', Filling k₀ k S') ?_ ⟨S, F⟩
  rintro k1 va hva ⟨S1, F1⟩
  refine (mapPage_filling F1 (stackPages_user va hva)).bind ?_
  rintro ⟨pa, k2⟩ ⟨S2, F2⟩
  exact meets_ok ⟨S2, F2⟩

/-- bytes stored from an address in the user half on -/
theorem writeBytes_filling {bs : List (BitVec 8)} {va : U64} (hcr3 : frame k₀.cr3 = k₀.pml4) (F : Filling k₀ k S)
    (hva : va.toNat + bs.length ≤ 2 ^ 47) : Meets (writeBytes bs va k) Unhandled fun k' => Filling k₀ k' S := by
  induction bs generalizing va k with
  | nil => exact meets_ok F
  | cons b bs ih =>
    rw [length_cons] at hva
    obtain ⟨hlt, hnext⟩ := user_next (v := va) (by omega)
    refine (@Filling.write_spec k₀ k S ⟨va, hlt⟩ false b F hcr3).bind ?_
    rintro k' ⟨F', -⟩
    exact ih F' (by omega)

theorem toNat_align16 (a : U64) : (a &&& ~~~ 0xF#64).toNat = a.toNat / 16 * 16 :=
  Elf.toNat_and_mask (n := 4) (by decide) a

/-- room made below `a`, with the result rounded down -/
theorem toNat_below {a b : U64} (h : b.toNat ≤ a.toNat) :
    ((a - b) &&& ~~~ 0xF#64).toNat = (a.toNat - b.toNat) / 16 * 16 := by
  rw [toNat_align16, BitVec.toNat_sub]
  omega

theorem toNat_argv0 {n : ℕ} (h : n ≤ 63) :
    (userStackTop - 64 - BitVec.ofNat 64 (n + 1)).toNat = 0x800000 - 64 - (n + 1) := by
  rw [BitVec.toNat_sub, BitVec.toNat_ofNat, show (userStackTop - 64).toNat = 0x800000 - 64 from rfl]
  omega

theorem length_words (ws : List U64) : (ws.flatMap wordBytes).length = 8 * ws.length := by
  induction ws with
  | nil => rfl
  | cons w ws ih =>
    rw [flatMap_cons, length_append, ih, wordBytes, length_map, length_range, length_cons]
    omega

/-- where `build_user_stack` puts the string -/
def argvAt (path : List (BitVec 8)) : U64 := userStackTop - 64 - BitVec.ofNat 64 (path.length + 1)

/-- where it puts the random bytes -/
def randomAt (path : List (BitVec 8)) : U64 := argvAt path - 16 &&& ~~~ 0xF#64

/-- where it puts the words -/
def rspAt (path : List (BitVec 8)) : U64 := randomAt path - BitVec.ofNat 64 ((1 + 2 + 1 + 6 + 1) * 8) &&& ~~~ 0xF#64

def stackWords (path : List (BitVec 8)) : List U64 := [1, argvAt path, 0, 0, 6, 4096, 25, randomAt path, 0, 0]

section Stack

variable {path : List (BitVec 8)}

theorem buildUserStack_eq (path : List (BitVec 8)) (k : Kern) : buildUserStack path k = (do
    let k ← writeBytes (path ++ [0]) (argvAt path) k
    let k ← writeBytes randomBytes (randomAt path) k
    let k ← writeBytes ((stackWords path).flatMap wordBytes) (rspAt path) k
    pure (rspAt path, k)) := rfl

theorem buildUserStack_rsp {r : U64 × Kern} (h : buildUserStack path k = .ok r) : r.1 = rspAt path := by
  rw [buildUserStack_eq] at h
  obtain ⟨k1, -, h⟩ := bind_ok.1 h
  obtain ⟨k2, -, h⟩ := bind_ok.1 h
  obtain ⟨k3, -, h⟩ := bind_ok.1 h
  cases h
  rfl

theorem stack_addrs (hpath : path.length ≤ 63) : (argvAt path).toNat = 0x800000 - 64 - (path.length + 1) ∧
    (randomAt path).toNat = ((argvAt path).toNat - 16) / 16 * 16 ∧
    (rspAt path).toNat = ((randomAt path).toNat - 88) / 16 * 16 := by
  have hargv : (argvAt path).toNat = 0x800000 - 64 - (path.length + 1) := toNat_argv0 hpath
  have hrandom : (randomAt path).toNat = ((argvAt path).toNat - 16) / 16 * 16 :=
    @toNat_below (argvAt path) 16 (by rw [show (16 : U64).toNat = 16 from rfl]; omega)
  exact ⟨hargv, hrandom, @toNat_below (randomAt path) (BitVec.ofNat 64 88) (by rw [BitVec.toNat_ofNat]; omega)⟩

/-- the number of bytes in each part -/
theorem stack_lengths (path : List (BitVec 8)) : (path ++ [0]).length = path.length + 1 ∧ randomBytes.length = 16 ∧
    ((stackWords path).flatMap wordBytes).length = 80 :=
  ⟨length_append, by rw [randomBytes, length_map, length_range], length_words _⟩

/-- **`build_user_stack`** stores bytes in the first page of the stack only. -/
theorem buildUserStack_meets {stop : Stop → Prop} {Q : Kern → Prop} (hpath : path.length ≤ 63)
    (hbytes : ∀ (k : Kern) (va : U64) (bs : List (BitVec 8)), Q k → 0x7FF000 ≤ va.toNat →
    va.toNat + bs.length ≤ 0x800000 →
      Meets (writeBytes bs va k) stop Q) (h : Q k) : Meets (buildUserStack path k) stop fun r => Q r.2 := by
  obtain ⟨hargv, hrandom, hrsp⟩ := stack_addrs hpath
  obtain ⟨h1, h2, h3⟩ := stack_lengths path
  rw [buildUserStack_eq]
  refine (hbytes k _ _ h (by omega) (by omega)).bind fun k1 hk1 => ?_
  refine (hbytes k1 _ _ hk1 (by omega) (by omega)).bind fun k2 hk2 => ?_
  exact (hbytes k2 _ _ hk2 (by omega) (by omega)).bind fun k3 hk3 => meets_ok hk3

end Stack

theorem buildUserStack_filling {path : List (BitVec 8)} (hpath : path.length ≤ 63) (hcr3 : frame k₀.cr3 = k₀.pml4)
    (F : Filling k₀ k S) : Meets (buildUserStack path k) Unhandled fun r => Filling k₀ r.2 S :=
  @buildUserStack_meets k path Unhandled (fun k => Filling k₀ k S) hpath
    (fun _ _ _ F _ hva => writeBytes_filling hcr3 F (by omega)) F

/-- **The image of `user_task_create`.** -/
theorem userTaskImage_spec {fs : Uixfs} {roots : List ℕ} (hsize : img.len.toNat + 0x400000 ≤ 2 ^ 47)
    (L : Live fs k roots) :
    Meets (userTaskImage img k) NotFree fun r => ∃ d, r.1 = pageAddr d ∧ d < 2 ^ 40 ∧
      Lives fs k roots fs r.2 (d :: roots) ∧ d ∈ k.pmm.freeSet ∧ r.2.pmm.freed = k.pmm.freed := by
  unfold userTaskImage
  refine ((vmmCreateSpace_spec L.spaces.trees.pmm).mono (fun st hst => ?_) fun _ h => h).bind ?_
  · rw [hst.1]
    exact fun hc => by cases hc
  rintro ⟨cr3, k1⟩ ⟨d, rfl, C⟩
  obtain ⟨hfresh, hroot⟩ := C.freshSpace L.spaces.trees.phys
  have hd40 := Pmm.lt_of_free C.fresh L.spaces.trees.phys
  refine (loadFlat_filling hsize hfresh.cr3 hfresh.filling).bind ?_
  rintro k2 ⟨S2, F2⟩
  refine (mapStack_filling F2).bind ?_
  rintro k3 ⟨S3, F3⟩
  refine meets_ok ⟨d, rfl, hd40, ?_, C.fresh, ?_⟩
  · have L1 := L.created C
    have L2 : Live fs (k1.vmmSwitch (pageAddr d)) ((k1.vmmSwitch (pageAddr d)).pml4 :: roots) := by
      rw [hroot]
      exact L1.live.switch _
    have L3 := L2.filled F3
    rw [hroot] at L3
    have L4 : Lives fs k roots fs k3 (d :: roots) := L1.trans ⟨L3.live, L3.pool, L3.mem⟩
    exact ⟨L4.live.switch _, L4.pool, L4.mem⟩
  · exact F3.takes.freed.trans C.takes.freed

end Fill

end Kern

/-! ## `do_execve` -/

namespace Exec

/-- the program found for the path, and the state in which the caller's space is still there -/
def Found (env : ExecEnv) (upath : U64) (s : ExecState) (img : Image) (s' : ExecState) : Prop :=
  ∃ copied fromDisk, copyPath s.kern 63 upath = .ok copied ∧
    findProgram env (pathString env.stale copied) s = .ok (some (img, fromDisk), s')

theorem found_iff {env : ExecEnv} {upath : U64} {s s' : ExecState} {img : Image} {copied : List (BitVec 8)}
    (hcopy : copyPath s.kern 63 upath = .ok copied) : Found env upath s img s' ↔
      ∃ fromDisk, findProgram env (pathString env.stale copied) s = .ok (some (img, fromDisk), s') := by
  simp only [Found, hcopy, Except.ok.injEq, exists_and_left, exists_eq_left']

section Parts

variable {env : ExecEnv} {path : List (BitVec 8)} {s : ExecState} {roots : List ℕ}

/-- **Looking the program up** touches the file buffer only. -/
theorem findProgram_spec (hheld : s.fs.Held s.kern) (hk : s.kern.pmm.Ok) :
    ∃ o s', findProgram env path s = .ok (o, s') ∧ s'.task = s.task ∧ s.fs.Buffered s'.fs s.kern s'.kern := by
  unfold findProgram
  split_ifs with h1 h2
  · exact ⟨_, s, rfl, rfl, .refl hheld hk⟩
  · exact ⟨_, s, rfl, rfl, .refl hheld hk⟩
  · obtain ⟨r, buf, fs, k, hrun, B, hbuf⟩ := Uixfs.uixfsRead_spec hheld hk env.disk path
    rw [hrun, ok_bind]
    rcases hbuf with ⟨hr, -, hsome⟩ | ⟨-, rfl⟩
    · obtain ⟨pa, rfl⟩ := Option.ne_none_iff_exists'.1 hsome
      simp only [if_neg (Int.not_lt.2 hr)]
      exact ⟨_, _, rfl, rfl, B⟩
    · exact ⟨_, _, rfl, rfl, B⟩

/-- the state in which the image is loaded, with the new space `d` -/
structure NewSpace (s s' : ExecState) (roots : List ℕ) (d : ℕ) : Prop where
  fs : s'.fs = s.fs
  task : s'.task = { s.task with cr3 := pageAddr d }
  small : d < 2 ^ 40
  lives : Lives s.fs s.kern (pageIdx s.task.cr3 :: roots) s.fs s'.kern (d :: roots)
  fresh : s'.kern.FreshSpace
  root : s'.kern.pml4 = d
  cr3 : s'.kern.cr3 = pageAddr d
  freed : ∃ l, s'.kern.pmm.freed = l ++ s.kern.pmm.freed ∧ ∀ g, g ∈ l ↔
    g ∈ paging.tables s.kern.mem 3 (pageIdx s.task.cr3) lowerHalf ∨
      (g ∈ Kern.frames s.kern.mem (pageIdx s.task.cr3) ∧ s.kern.pmm.Lone g)
  room : s.kern.pmm.freeSet.card ≤ s'.kern.pmm.freeSet.card
  len : s'.kern.pmm.bitmapLen = s.kern.pmm.bitmapLen

/-- **The old space is given back, and a new one is active.** There is a page for it: that of the old PML4 is free. -/
theorem newSpace_spec (L : Live s.fs s.kern (pageIdx s.task.cr3 :: roots)) (h0 : s.task.cr3 ≠ 0)
    (hshared : ∀ r ∈ roots, ∀ f ∈ frames s.kern.mem (pageIdx s.task.cr3), f ∈ frames s.kern.mem r →
      2 ≤ s.kern.pmm.counts f) :
    ∃ s' d, newSpace s = .ok s' ∧ NewSpace s s' roots d := by
  have hroot : pageIdx s.task.cr3 ∈ pageIdx s.task.cr3 :: roots := mem_cons_self
  obtain ⟨p, hrun, F⟩ := teardown_spec L.spaces hroot h0
    (fun g hg => (L.tables g (mem_forest.2 ⟨_, hroot, hg⟩)).1) fun f hf => (L.pages _ hroot f hf).1
  have hlives : Lives s.fs s.kern _ s.fs ((s.kern.vmmSwitch s.task.cr3).setPmm p) roots := L.torn rfl F hshared
  have L1 := hlives.live
  have hfree : insert (pageIdx s.task.cr3) s.kern.pmm.freeSet ⊆ p.freeSet := by
    intro g hg
    rw [F.free]
    rcases Finset.mem_insert.1 hg with rfl | hg
    · exact .inr (.inl mem_cons_self)
    · exact .inl hg
  have hcard : s.kern.pmm.freeSet.card + 1 ≤ p.freeSet.card := by
    rw [← Finset.card_insert_of_notMem (L.spaces.trees.used _ (root_mem_forest hroot))]
    exact Finset.card_le_card hfree
  obtain ⟨⟨cr3, k1⟩, hcreate, d, hcr3, C⟩ := (vmmCreateSpace_spec L1.spaces.trees.pmm).exists_ok fun st hst => by
    have h0 := hst.2
    rw [setPmm_pmm] at h0
    rw [h0, Finset.card_empty] at hcard
    omega
  dsimp only at hcr3 C
  subst hcr3
  obtain ⟨hfresh, hpml4⟩ := C.freshSpace L1.spaces.trees.phys
  refine ⟨{ s with kern := k1.vmmSwitch (pageAddr d), task := { s.task with cr3 := pageAddr d } }, d, ?_, rfl, rfl, ?_,
    ?_, hfresh, hpml4, rfl, ?_, ?_, C.takes.len.trans F.len⟩
  · unfold newSpace
    rw [hrun, ok_bind, hcreate]
    rfl
  · exact Pmm.lt_of_free C.fresh L1.spaces.trees.phys
  · have L2 := hlives.trans (L1.created C)
    exact ⟨L2.live.switch _, L2.pool, L2.mem⟩
  · obtain ⟨l, hl, hmem⟩ := F.freed
    exact ⟨l, C.takes.freed.trans hl, hmem⟩
  · change s.kern.pmm.freeSet.card ≤ k1.pmm.freeSet.card
    rw [C.takes.free, Finset.card_sdiff_of_subset C.takes.sub, setPmm_pmm, Finset.card_singleton]
    omega

theorem isElf_meets (img : Image) : Meets (isElf img) Unhandled fun _ => True := by
  unfold isElf
  split_ifs
  · exact meets_ok trivial
  refine (img.get_meets _).bind fun _ _ => ?_
  split_ifs
  · exact meets_ok trivial
  · exact (img.get_meets _).bind fun _ _ => meets_ok trivial

/-- **Loading fills the space.** -/
theorem loadImage_filling {img : Image} {k : Kern} (himg : UserImage img) (hpath : path.length ≤ 63)
    (h : k.FreshSpace) : Meets (loadImage img path k) NotFree fun r => ∃ S, Filling k r.2 S := by
  unfold loadImage
  refine (isElf_meets img).notFree.bind fun elf _ => ?_
  cases elf with
  | true =>
    refine (Elf.elfLoad_filling h himg.segments).bind ?_
    rintro ⟨entry, l⟩ ⟨⟨S, F⟩, -⟩
    dsimp only
    split_ifs with h0
    · exact meets_ok ⟨S, F⟩
    refine (mapStack_filling F).bind ?_
    rintro k1 ⟨S1, F1⟩
    refine (buildUserStack_filling hpath h.cr3 F1).notFree.bind ?_
    rintro ⟨rsp, k2⟩ F2
    exact meets_ok ⟨S1, F2⟩
  | false =>
    refine (loadFlat_filling himg.size h.cr3 h.filling).bind ?_
    rintro k1 ⟨S1, F1⟩
    refine (mapStack_filling F1).bind ?_
    rintro k2 ⟨S2, F2⟩
    exact meets_ok ⟨S2, F2⟩

theorem pathString_length (stale : ℕ → BitVec 8) (copied : List (BitVec 8)) :
    (pathString stale copied).length ≤ 63 := by
  refine (takeWhile_sublist _).length_le.trans ?_
  rw [length_map, length_range]

theorem copyPath_meets (k : Kern) (n : ℕ) (upath : U64) : Meets (copyPath k n upath) Unhandled fun _ => True := by
  induction n generalizing upath with
  | zero => exact meets_ok trivial
  | succ n ih =>
    have hread : Meets (k.readByte upath) Unhandled fun _ => True := by
      unfold readByte
      split_ifs
      · cases mmuWalk k.mem 3 (frame k.cr3) (idx upath) with
        | none => exact meets_error rfl
        | some t => exact meets_ok trivial
      · exact meets_error rfl
    refine hread.bind fun b _ => ?_
    split_ifs
    · exact meets_ok trivial
    · exact (ih _).bind fun rest _ => meets_ok trivial

/-- the caller of `execve` after the call, with the space `d` -/
structure Moved (s s' : ExecState) (roots : List ℕ) (d : ℕ) : Prop where
  idx : pageIdx s'.task.cr3 = d
  aligned : frame s'.task.cr3 = d
  cr3 : s'.task.cr3 = s.task.cr3 ∨ s'.task.cr3 = pageAddr d
  lives : Lives s.fs s.kern (pageIdx s.task.cr3 :: roots) s'.fs s'.kern (d :: roots)
  frees : s.kern.pmm.Frees s'.kern.pmm fun g => ∀ r ∈ roots, g ∉ frames s.kern.mem r
  active : s.kern.cr3 = s.task.cr3 → s.kern.pml4 = pageIdx s.task.cr3 → s'.kern.cr3 = s'.task.cr3 ∧ s'.kern.pml4 = d

/-- **`execve` beside other spaces.** They stay in order, and none of their pages is given back, if a program is found
only when no page that they share with the caller is down to its last reference. -/
theorem doExecve_live {upath trampoline : U64} (L : Live s.fs s.kern (pageIdx s.task.cr3 :: roots))
    (hshared : ∀ img s', Found env upath s img s' → ∀ r ∈ roots, ∀ f ∈ frames s.kern.mem (pageIdx s.task.cr3),
      f ∈ frames s.kern.mem r → 2 ≤ s.kern.pmm.counts f) (haligned : frame s.task.cr3 = pageIdx s.task.cr3)
    (himg : ∀ img s', Found env upath s img s' → UserImage img) :
    Meets (doExecve env trampoline upath s) NotFree fun r => ∃ d, Moved s r.2 roots d := by
  have hmem : ∀ r ∈ roots, r ∈ pageIdx s.task.cr3 :: roots := fun r hr => mem_cons_of_mem _ hr
  have h0 : s.task.cr3 ≠ 0 := fun hc =>
    (L.tables _ (root_mem_forest mem_cons_self)).1 (show pageIdx s.task.cr3 = 0 by rw [hc]; rfl)
  unfold doExecve
  refine (copyPath_meets _ _ _).notFree.self.bind fun copied hcopy => ?_
  obtain ⟨o, s1, hfind, htask, B⟩ := @findProgram_spec env (pathString env.stale copied) s L.held
    L.spaces.trees.pmm
  have hbuf := L.buffered B
  have L1 := hbuf.live
  have hframes : ∀ r ∈ pageIdx s.task.cr3 :: roots, frames s1.kern.mem r = frames s.kern.mem r := fun r hr => by
    rw [frames, (L.buffered_agree B hr).leaves, frames]
  have hcounts : s1.kern.pmm.counts = s.kern.pmm.counts := by rw [Pmm.counts, B.refs, Pmm.counts]
  -- the pages of the buffer belong to no space
  have hfrees : s.kern.pmm.Frees s1.kern.pmm fun g => ∀ r ∈ roots, g ∉ frames s.kern.mem r := by
    obtain ⟨l, hl, hbuf⟩ := B.freed
    exact ⟨l, hl, fun g hg r hr hc => (L.pages r (hmem r hr) g hc).2 (hbuf g hg)⟩
  dsimp only
  rw [hfind, ok_bind]
  cases o with
  | none =>
    refine meets_ok ⟨pageIdx s.task.cr3, by rw [htask], by rw [htask, haligned], .inl (by rw [htask]), hbuf, hfrees,
      fun hcr3 hpml4 => ?_⟩
    rw [htask, B.regs.1, B.regs.2.1]
    exact ⟨hcr3, hpml4⟩
  | some p =>
    obtain ⟨img, fromDisk⟩ := p
    rw [← htask] at L1 h0
    have hshared1 : ∀ r ∈ roots, ∀ f ∈ frames s1.kern.mem (pageIdx s1.task.cr3), f ∈ frames s1.kern.mem r →
        2 ≤ s1.kern.pmm.counts f := by
      intro r hr f hf hf'
      rw [htask, hframes _ mem_cons_self] at hf
      rw [hframes r (hmem r hr)] at hf'
      rw [hcounts]
      exact hshared img s1 ⟨copied, fromDisk, hcopy, hfind⟩ r hr f hf hf'
    obtain ⟨s2, d, hspace, N⟩ := newSpace_spec L1 h0 hshared1
    dsimp only
    rw [hspace, ok_bind]
    have hfrees2 : s.kern.pmm.Frees s2.kern.pmm fun g => ∀ r ∈ roots, g ∉ frames s.kern.mem r := by
      refine hfrees.trans ?_
      obtain ⟨l, hl, hmem'⟩ := N.freed
      refine ⟨l, hl, fun g hg r hr hc => ?_⟩
      rw [← hframes r (hmem r hr)] at hc
      rcases (hmem' g).1 hg with ht | ⟨hf, hlone⟩
      · exact L1.spaces.apart r (mem_cons_of_mem _ hr) g hc (mem_forest.2 ⟨_, mem_cons_self, ht⟩)
      · exact absurd (hshared1 r hr g hf hc) (Nat.not_le.2 (Nat.lt_succ_of_le hlone.2))
    have hroots : Lives s.fs s.kern (pageIdx s.task.cr3 :: roots) s2.fs s2.kern (s2.kern.pml4 :: roots) := by
      rw [N.fs, N.root]
      exact hbuf.trans (htask ▸ N.lives)
    have hmoved : ∀ {s'}, s'.task.cr3 = s2.task.cr3 →
      Lives s2.fs s2.kern (s2.kern.pml4 :: roots) s'.fs s'.kern (d :: roots) →
        (s.kern.pmm.Frees s'.kern.pmm fun g => ∀ r ∈ roots, g ∉ frames s.kern.mem r) → SameRegs s2.kern s'.kern →
        Moved s s' roots d := fun {s'} hcr3 hl hf hregs => by
      have hd : s'.task.cr3 = pageAddr d := by rw [hcr3, N.task]
      refine ⟨?_, ?_, .inr hd, hroots.trans hl, hf, fun _ _ => ⟨?_, hregs.1.trans N.root⟩⟩
      · rw [hd, Pmm.pageIdx_pageAddr (N.small.trans (by decide))]
      · rw [hd, frame_pageAddr N.small]
      · rw [hregs.2.1, N.cr3, hd]
    refine (loadImage_filling (himg img s1 ⟨copied, fromDisk, hcopy, hfind⟩) (pathString_length _ _) N.fresh).bind ?_
    rintro ⟨o, k3⟩ ⟨S, F⟩
    have hfrees3 : s.kern.pmm.Frees k3.pmm fun g => ∀ r ∈ roots, g ∉ frames s.kern.mem r :=
      hfrees2.trans (.none F.takes.freed)
    have hfilled : Lives s2.fs s2.kern (s2.kern.pml4 :: roots) s2.fs k3 (d :: roots) := by
      have := hroots.live.filled F
      rwa [N.root] at this ⊢
    cases o with
    | none => exact meets_ok ⟨d, hmoved rfl hfilled hfrees3 F.regs⟩
    | some q =>
      cases fromDisk with
      | false => exact meets_ok ⟨d, hmoved rfl hfilled hfrees3 F.regs⟩
      | true =>
        have L3 := hfilled.live
        obtain ⟨p, n, hfree, G⟩ := Uixfs.fileBufFree_spec L3.held L3.spaces.trees.pmm
        have B3 := Uixfs.Buffered.emptied G n
        simp only [if_true, hfree, ok_bind]
        refine meets_ok ⟨d, hmoved rfl (hfilled.trans (L3.buffered B3)) (hfrees3.trans ?_) (F.regs.trans B3.regs)⟩
        obtain ⟨l, hl, hbuf⟩ := B3.freed
        refine ⟨l, hl, fun g hg r hr hc => ?_⟩
        rw [← hframes r (hmem r hr)] at hc
        exact (L1.pages r (mem_cons_of_mem _ hr) g hc).2 (N.fs ▸ hbuf g hg)

end Parts

end Exec

end Uix
