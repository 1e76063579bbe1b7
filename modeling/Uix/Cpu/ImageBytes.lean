/-
What the loaders leave in memory. A byte that a program reads was stored, or cleared with its page, or is what the page
held before: a flat image is copied to pages that were not cleared, and neither are the pages of the stack.

What is stored depends on the image alone, so each loader is described by what it does to `Contents`.

- `Seen`: a space being filled, and what a program reads there.
- `Seen.added`, `Seen.write`: one page more, one byte more.
- `Seen.copyIn`, `Seen.loadFlat`, `Seen.mapStack`, `Seen.buildUserStack`: copies, a flat image and the stack.
- `loadPage_seen`, `loadTargets_seen`: the pages of an ELF file.
-/
import Uix.Cpu.ElfReads
import Uix.Memory.ForkIsolation

namespace Uix

open Machine Radix Radix.Format Bytes List Function
open Pmm (pageIdx pageAddr)

namespace Kern

/-- the bytes that were stored or cleared -/
abbrev Contents := UserAddr → Option (BitVec 8)

/-- `k` fills the space of `k₀`: a program reads the contents `c` there, and elsewhere what the pages held at first -/
structure Seen (k₀ k : Kern) (c : Contents) : Prop where
  fill : ∃ S, Filling k₀ k S
  read : ∀ x : UserAddr, userByte k.mem k₀.pml4 x.1 = (paging.walk k.mem 3 k₀.pml4 (idx x.1)).map fun p =>
    (c x).getD (getByte (k₀.mem (frame p.2)) (x.1.toNat % pageSize))
  mapped : ∀ x : UserAddr, c x ≠ none → userByte k.mem k₀.pml4 x.1 ≠ none

/-! ## A page, a byte -/

section Seen

variable {k₀ k k₁ : Kern} {S S₁ : Finset ℕ} {c d : Contents} {va x : UserAddr} {flags : U64} {t : ℕ}
  {row : Fin 512 → U64}

theorem Filling.view (F : Filling k₀ k S) (a : UserAddr) :
    userByte k.mem k₀.pml4 a.1 = (paging.walk k.mem 3 k₀.pml4 (idx a.1)).map fun p =>
      getByte (k.mem (frame p.2)) (a.1.toNat % pageSize) := F.spaces.view (mem_singleton_self _) a

theorem Filling.view_eq_none (F : Filling k₀ k S) (a : UserAddr) :
    userByte k.mem k₀.pml4 a.1 = none ↔ paging.walk k.mem 3 k₀.pml4 (idx a.1) = none := by
  rw [F.view, Option.map_eq_none_iff]

/-- a byte stored where something is mapped -/
theorem Filling.view_stored {e : U64} (F : Filling k₀ k S) (hw : paging.walk k.mem 3 k.pml4 (idx va.1) = some (0, e))
    (b : BitVec 8) (a : UserAddr) : userByte (k.putByte (frame e) (va.1.toNat % pageSize) b).mem k₀.pml4 a.1 =
      if a = va then some b else userByte k.mem k₀.pml4 a.1 := by
  have hwr : has e writeBit = true := F.writable (0, e) (mem_leaves.2 ⟨_, va.lower, hw⟩)
  have hguard : Guarded k.mem [k₀.pml4] := fun r hr p _ _ r' hr' hne =>
    absurd ((mem_singleton.1 hr').trans (mem_singleton.1 hr).symm) hne
  have W := @Spaces.stored k _ va b e F.spaces hguard F.active hw hwr
  rw [W.view _ (mem_singleton_self _) a, F.regs.1]
  simp only [true_and]

theorem FreshSpace.seen (h : k.FreshSpace) : Seen k k fun _ => none :=
  ⟨⟨_, h.filling⟩, h.filling.view, fun _ hc => absurd rfl hc⟩

theorem Seen.congr (W : Seen k₀ k c) (h : ∀ x, c x = d x) : Seen k₀ k d := funext h ▸ W

theorem Seen.byte {b : BitVec 8} (W : Seen k₀ k c) (h : c x = some b) : userByte k.mem k₀.pml4 x.1 = some b := by
  have hm := W.mapped x (h ▸ Option.some_ne_none b)
  rw [W.read x, h] at hm ⊢
  cases hw : paging.walk k.mem 3 k₀.pml4 (idx x.1) with
  | none =>
    rw [hw] at hm
    exact absurd rfl hm
  | some p => rfl

/-- **A page added**: with contents that are known, or with those it had. -/
theorem Seen.added (W : Seen k₀ k c) (F₁ : Filling k₀ k₁ S₁) (ht : t < 2 ^ 40) (hf : UserFlags flags)
    (A : PageAdded k k₁ k₀.pml4 va flags t row)
    (hin : ∀ x, SamePage x va → c x = none →
      (d x).getD (getByte (k₀.mem t) (x.1.toNat % pageSize)) = getByte row (x.1.toNat % pageSize))
    (hout : ∀ x, ¬ SamePage x va → d x = c x) : Seen k₀ k₁ d := by
  obtain ⟨S, F⟩ := W.fill
  have hnew : ∀ x, SamePage x va → userByte k₁.mem k₀.pml4 x.1 = some (getByte row (x.1.toNat % pageSize)) :=
    fun x hx => by
    rw [F₁.view, A.hit x hx, Option.map_some, frame_pageEntry ht hf.1, A.row]
  have hold : ∀ x, ¬ SamePage x va → userByte k₁.mem k₀.pml4 x.1 = userByte k.mem k₀.pml4 x.1 := fun x hx => by
    rw [F₁.view, A.miss x hx, F.view]
    cases hw : paging.walk k.mem 3 k₀.pml4 (idx x.1) with
    | none => rfl
    | some p => rw [Option.map_some, Option.map_some, A.kept _ (frame_mem_frames x.lower hw)]
  refine ⟨⟨_, F₁⟩, fun x => ?_, fun x hx => ?_⟩
  · by_cases hp : SamePage x va
    · have hnone : c x = none := by
        by_contra hc
        exact W.mapped x hc ((F.view_eq_none x).2 (A.absent x hp))
      rw [hnew x hp, A.hit x hp, Option.map_some, frame_pageEntry ht hf.1, hin x hp hnone]
    · rw [hold x hp, A.miss x hp, hout x hp, W.read x]
  · by_cases hp : SamePage x va
    · rw [hnew x hp]
      exact Option.some_ne_none _
    · rw [hold x hp]
      exact W.mapped x (hout x hp ▸ hx)

/-- a page as it is -/
theorem Seen.mapPage (W : Seen k₀ k c) : Meets (k.mapPage va.1 pageFlags) (fun _ => True) fun r => Seen k₀ r.2 c := by
  obtain ⟨S, F⟩ := W.fill
  refine (F.mapPage_spec pageFlags_user pageFlags_write).mono (fun _ _ => trivial) ?_
  rintro ⟨pa, k'⟩ ⟨t, S', F', ht, M⟩
  have M' : PageMapped { k with mem := update k.mem t (k.mem t) } k' [k₀.pml4] va pageFlags t S' := by
    rw [update_eq_self]
    exact M
  refine W.added F' (Pmm.lt_of_free ht F.spaces.trees.phys) pageFlags_user (F.added ht M') (fun x _ hc => ?_)
    fun _ _ => rfl
  rw [hc, F.free_kept ht]
  rfl

/-- a byte stored -/
theorem Seen.write (W : Seen k₀ k c) (hcr3 : frame k₀.cr3 = k₀.pml4) (b : BitVec 8) :
    Meets (k.write false va.1 b) (fun _ => True) fun k' => Seen k₀ k' (update c va (some b)) := by
  obtain ⟨S, F⟩ := W.fill
  refine (F.write_spec hcr3).mono (fun _ _ => trivial) ?_
  rintro k' ⟨F', e, hw, rfl⟩
  have hview := F.view_stored hw b
  rw [F.regs.1] at hw
  have hr := mem_singleton_self k₀.pml4
  have hwalk : ∀ x : UserAddr, paging.walk (k.putByte (frame e) (va.1.toNat % pageSize) b).mem 3 k₀.pml4 (idx x.1) =
      paging.walk k.mem 3 k₀.pml4 (idx x.1) := fun x =>
    (Agree.setPage (F.spaces.apart _ hr _ (frame_mem_frames (p := (0, e)) va.lower hw)) _ hr).walk x.lower
  refine ⟨⟨_, F'⟩, fun x => ?_, fun x hx => ?_⟩
  · rw [hview x, hwalk x]
    by_cases hva : x = va
    · rw [hva, if_pos rfl, update_self, hw]
      rfl
    · rw [if_neg hva, update_of_ne hva, W.read x]
  · rw [hview x]
    by_cases hva : x = va
    · rw [if_pos hva]
      exact Option.some_ne_none b
    · rw [update_of_ne hva] at hx
      rw [if_neg hva]
      exact W.mapped x hx

end Seen

/-! ## Bytes one after the other -/

/-- the address is one of the `n` from `a` on -/
def Span (a n : ℕ) (va : UserAddr) : Prop := a ≤ va.1.toNat ∧ va.1.toNat < a + n

instance (a n : ℕ) (va : UserAddr) : Decidable (Span a n va) := inferInstanceAs (Decidable (_ ∧ _))

/-- the bytes `f`, `n` of them, stored from `va` on -/
def patch (f : ℕ → BitVec 8) (n : ℕ) (va : U64) (c : Contents) : Contents := fun x =>
  if Span va.toNat n x then some (f (x.1.toNat - va.toNat)) else c x

/-- a byte string stored from `va` on -/
def stored (bs : List (BitVec 8)) (va : U64) : Contents → Contents := patch (bs.getD · 0) bs.length va

/-- a byte of an image, from `off` on -/
def imageByte (img : Image) (off : U64) (j : ℕ) : BitVec 8 := (img.get (off + BitVec.ofNat 64 j)).toOption.getD 0

section Patch

variable {k₀ k : Kern} {c : Contents} {img : Image} {va off : U64} {f g : ℕ → BitVec 8} {m n : ℕ}

theorem patch_zero : patch f 0 va c = c := funext fun _ => if_neg fun h => absurd h.2 (Nat.not_lt.2 h.1)

theorem patch_congr (h : ∀ j < n, f j = g j) : patch f n va c = patch g n va c := by
  funext x
  by_cases hx : Span va.toNat n x
  · rw [patch, patch, if_pos hx, if_pos hx, h _ (by have := hx.1; have := hx.2; omega)]
  · rw [patch, patch, if_neg hx, if_neg hx]

theorem patch_ne_none {x : UserAddr} : patch f n va c x ≠ none ↔ Span va.toNat n x ∨ c x ≠ none := by
  rw [patch]
  split_ifs with h
  · exact iff_of_true (Option.some_ne_none _) (.inl h)
  · exact (or_iff_right h).symm

theorem patch_append (h : va.toNat + m < 2 ^ 64) :
    patch f (m + n) va c = patch (fun j => f (m + j)) n (va + BitVec.ofNat 64 m) (patch f m va c) := by
  have hva : (va + BitVec.ofNat 64 m).toNat = va.toNat + m := by
    rw [BitVec.toNat_add, BitVec.toNat_ofNat]
    omega
  funext x
  by_cases h1 : Span va.toNat m x
  · have := h1.2
    rw [patch, if_pos ⟨h1.1, by omega⟩, patch, if_neg fun hc => absurd hc.1 (by omega), patch, if_pos h1]
  · have hsplit : Span va.toNat (m + n) x ↔ Span (va + BitVec.ofNat 64 m).toNat n x := by
      rw [Span] at h1
      rw [Span, Span, hva]
      omega
    by_cases h2 : Span (va + BitVec.ofNat 64 m).toNat n x
    · have := h2.1
      rw [patch, if_pos (hsplit.2 h2), patch, if_pos h2, hva, ← Nat.sub_sub, Nat.add_sub_cancel' (by omega)]
    · rw [patch, if_neg (mt hsplit.1 h2), patch, if_neg h2, patch, if_neg h1]

theorem patch_succ (h : va.toNat < 2 ^ 47) (hlt : va < 0x0000800000000000#64) :
    patch f (n + 1) va c = patch (fun j => f (j + 1)) n (va + 1) (update c ⟨va, hlt⟩ (some (f 0))) := by
  have hone : patch f 1 va c = update c ⟨va, hlt⟩ (some (f 0)) := by
    funext x
    by_cases hx : x = ⟨va, hlt⟩
    · rw [hx, update_self, patch, if_pos ⟨le_rfl, Nat.lt_succ_self _⟩, Nat.sub_self]
    · have hne : x.1.toNat ≠ va.toNat := fun hc => hx (Subtype.ext (BitVec.eq_of_toNat_eq hc))
      rw [update_of_ne hx, patch, if_neg fun hc => hne (by have := hc.1; have := hc.2; omega)]
  rw [Nat.add_comm n 1, patch_append (by omega), hone]
  simp only [Nat.add_comm 1]
  rfl

/-- **A copy.** -/
theorem Seen.copyIn (W : Seen k₀ k c) (hcr3 : frame k₀.cr3 = k₀.pml4) (hva : va.toNat ≤ 2 ^ 47) :
    Meets (img.copyIn n va off k) (fun _ => True) fun k' => Seen k₀ k' (patch (imageByte img off) n va c) := by
  induction n generalizing va off k c with
  | zero =>
    rw [patch_zero]
    exact meets_ok W
  | succ n ih =>
    rw [Image.copyIn]
    cases hb : img.get off with
    | error e => exact meets_error trivial
    | ok b =>
      rw [ok_bind]
      by_cases hend : va.toNat = 2 ^ 47
      · have hcan : ¬ Canonical va := by
          rintro (h | h) <;> omega
        rw [Kern.write, if_pos hcan]
        exact meets_error trivial
      · obtain ⟨hlt, hnext⟩ := user_next (v := va) (by omega)
        refine (@Seen.write k₀ k c ⟨va, hlt⟩ W hcr3 b).bind fun k1 W1 => ?_
        have hfirst : imageByte img off 0 = b := by
          rw [imageByte, addr_zero, hb]
          rfl
        have hrest : (fun j => imageByte img off (j + 1)) = imageByte img (off + 1) := by
          funext j
          rw [imageByte, imageByte, addr_succ]
        rw [patch_succ (by omega) hlt, hfirst, hrest]
        exact ih W1 (by omega)

/-- **Bytes stored.** -/
theorem Seen.writeBytes {bs : List (BitVec 8)} (W : Seen k₀ k c) (hcr3 : frame k₀.cr3 = k₀.pml4)
    (hva : va.toNat + bs.length ≤ 2 ^ 47) :
    Meets (writeBytes bs va k) (fun _ => True) fun k' => Seen k₀ k' (stored bs va c) := by
  induction bs generalizing va k c with
  | nil =>
    rw [stored, length_nil, patch_zero]
    exact meets_ok W
  | cons b bs ih =>
    rw [length_cons] at hva
    obtain ⟨hlt, hnext⟩ := user_next (v := va) (by omega)
    refine (@Seen.write k₀ k c ⟨va, hlt⟩ W hcr3 b).bind fun k1 W1 => ?_
    rw [stored, length_cons, patch_succ (by omega) hlt]
    exact ih W1 (by omega)

end Patch

/-! ## A flat image and the stack -/

section Flat

variable {k₀ k : Kern} {c : Contents} {img : Image} {path : List (BitVec 8)}

/-- the offset after some pages of a flat image -/
theorem flatOffset_eq {len : U64} {pre post : List ℕ} {off : ℕ} (h : flatOffsets len = pre ++ off :: post) :
    off = pre.length * pageSize := by
  have hget := congrArg (·[pre.length]?) h
  simp only [flatOffsets, getElem?_map, getElem?_append_right le_rfl, Nat.sub_self, getElem?_cons_zero,
    Option.map_eq_some_iff] at hget
  obtain ⟨i, hi, rfl⟩ := hget
  obtain ⟨-, rfl⟩ := List.getElem?_eq_some_iff.1 hi
  rw [getElem_range]

/-- **The loop over a flat image.** -/
theorem Seen.loadFlat (W : Seen k₀ k c) (hcr3 : frame k₀.cr3 = k₀.pml4) (hsize : img.len.toNat + 0x400000 ≤ 2 ^ 47) :
    Meets (loadFlat img k) (fun _ => True) fun k' =>
      Seen k₀ k' (patch (imageByte img 0) img.len.toNat userCodeBase c) := by
  have hloop : Meets (Kern.loadFlat img k) (fun _ => True) fun k' => Seen k₀ k'
      (patch (imageByte img 0) (min ((flatOffsets img.len).length * pageSize) img.len.toNat) userCodeBase c) := by
    refine foldlM_meets (fun pre k' => Seen k₀ k'
      (patch (imageByte img 0) (min (pre.length * pageSize) img.len.toNat) userCodeBase c)) ?_ ?_
    · rw [length_nil, Nat.zero_mul, Nat.zero_min, patch_zero]
      exact W
    · intro pre off post k1 hl W1
      have hlt := mem_flatOffsets (show off ∈ flatOffsets img.len by rw [hl]; simp)
      obtain rfl := flatOffset_eq hl
      have haddr := @codeAddr (pre.length * pageSize) (by omega)
      have hva : userCodeBase + BitVec.ofNat 64 (pre.length * pageSize) < 0x0000800000000000#64 :=
        BitVec.lt_def.2 (by rw [haddr, BitVec.toNat_ofNat]; omega)
      unfold loadFlatPage
      refine (@Seen.mapPage k₀ k1 _ ⟨_, hva⟩ W1).bind fun r W2 => ?_
      refine (W2.copyIn hcr3 (by omega)).mono (fun _ _ => trivial) fun k2 W3 => W3.congr fun x => ?_
      rw [Nat.min_eq_left hlt.le, length_append, length_singleton]
      have hnext : min ((pre.length + 1) * pageSize) img.len.toNat = pre.length * pageSize +
          if pageSize < img.len.toNat - pre.length * pageSize then pageSize
            else img.len.toNat - pre.length * pageSize := by
        rw [Nat.add_mul, Nat.one_mul]
        split_ifs <;> omega
      rw [hnext, patch_append (by rw [show userCodeBase.toNat = 0x400000 from rfl]; omega)]
      refine congrFun (patch_congr fun j _ => ?_) x
      rw [imageByte, imageByte, BitVec.ofNat_add, show (0 : U64) + _ = _ from BitVec.zero_add _]
  refine hloop.mono (fun _ _ => trivial) fun k' W' => ?_
  rwa [Nat.min_eq_right] at W'
  rw [flatOffsets, length_map, length_range, pageSize]
  omega

/-- **The pages of the stack** are not cleared. -/
theorem Seen.mapStack (W : Seen k₀ k c) : Meets (mapStack k) (fun _ => True) fun k' => Seen k₀ k' c := by
  refine foldlM_meets (fun _ k' => Seen k₀ k' c) W ?_
  intro pre va post k1 hl W1
  have hva := stackPages_user va (by rw [hl]; simp)
  exact (@Seen.mapPage k₀ k1 c ⟨va, hva⟩ W1).bind fun r W2 => meets_ok W2

/-- **The stack of a new space**, if there are enough pages. -/
theorem FreshSpace.stack (h : k.FreshSpace) (hroom : 256 ≤ k.pmm.freeSet.card) : ∃ k', mapStack k = .ok k' ∧
    Stocked lowerHalf .fresh k k' stackPages.reverse ∧ Seen k k' (fun _ => none) ∧
    k.pmm.freeSet.card ≤ k'.pmm.freeSet.card + 256 := by
  have hcost : cost .fresh stackPages.reverse ≤ 256 := by
    have := cost_le stackPages.reverse
    rwa [length_reverse, stackPages, length_map, length_range] at this
  have happart : Apart [] stackPages := ⟨stackPages_apart, fun _ _ ⟨_, hc, _⟩ => absurd hc not_mem_nil⟩
  have hstop : pagesStop .fresh k.pmm.freeSet.card [] stackPages = none := (pagesStop_none (cost_nil_le _)).2
    ⟨happart, by rw [append_nil]; exact hcost.trans hroom⟩
  obtain ⟨k', hrun, hs⟩ := (h.stockedFresh.mapStack userFree_fresh).ok hstop
  rw [append_nil] at hs
  have hleft := hs.left
  exact ⟨k', hrun, hs, h.seen.mapStack.of_eq hrun, by omega⟩

/-- what `build_user_stack` stores: the string, the random bytes and the words -/
def StackBytes (path : List (BitVec 8)) (x : UserAddr) : Prop :=
  let argv0 := 0x800000 - 64 - (path.length + 1)
  let random := (argv0 - 16) / 16 * 16
  let rsp := (random - 88) / 16 * 16
  Span argv0 (path.length + 1) x ∨ Span random 16 x ∨ Span rsp 80 x

def stackContents (path : List (BitVec 8)) (c : Contents) : Contents :=
  stored ((stackWords path).flatMap wordBytes) (rspAt path)
    (stored randomBytes (randomAt path) (stored (path ++ [0]) (argvAt path) c))

theorem stackContents_ne_none (hpath : path.length ≤ 63) {x : UserAddr} :
    stackContents path c x ≠ none ↔ c x ≠ none ∨ StackBytes path x := by
  obtain ⟨hargv, hrandom, hrsp⟩ := stack_addrs hpath
  obtain ⟨h1, h2, h3⟩ := stack_lengths path
  rw [stackContents, stored, stored, stored, patch_ne_none, patch_ne_none, patch_ne_none, h1, h2, h3, hrsp,
    hrandom, hargv, StackBytes]
  constructor <;> rintro (h | h | h | h)
  all_goals first | exact .inl h | exact .inr (.inl h) | exact .inr (.inr (.inl h)) | exact .inr (.inr (.inr h))

/-- **The initial stack.** -/
theorem Seen.buildUserStack (W : Seen k₀ k c) (hcr3 : frame k₀.cr3 = k₀.pml4) (hpath : path.length ≤ 63) :
    Meets (buildUserStack path k) (fun _ => True) fun r => Seen k₀ r.2 (stackContents path c) := by
  obtain ⟨hargv, hrandom, hrsp⟩ := stack_addrs hpath
  obtain ⟨h1, h2, h3⟩ := stack_lengths path
  rw [buildUserStack_eq]
  refine (W.writeBytes hcr3 (by omega)).bind fun k1 W1 => ?_
  refine (W1.writeBytes hcr3 (by omega)).bind fun k2 W2 => ?_
  exact (W2.writeBytes hcr3 (by omega)).bind fun k3 W3 => meets_ok W3

end Flat

end Kern

/-! ## ELF images -/

namespace Elf

open Kern (Contents Seen Span patch patch_congr patch_ne_none imageByte)

/-- a page of a segment: it is cleared, and gets its part of the file -/
def pageContents (img : Image) (p : Phdr × U64) (c : Contents) : Contents :=
  let cleared : Contents := fun x => if x.1.toNat / pageSize = p.2.toNat / pageSize then some 0 else c x
  if p.1.offset ≤ p.1.fileOff p.2 ∧ p.2 < p.1.vaddr + p.1.filesz then
    patch (imageByte img (p.1.fileOff p.2)) (p.1.copyLen img.len p.2).toNat p.2 cleared
  else cleared

/-- the pages one after the other -/
def targetContents (img : Image) (l : List (Phdr × U64)) (c : Contents) : Contents :=
  l.foldl (fun c p => pageContents img p c) c

section Seen

variable {img img' : Image} {ph : Phdr} {va : U64} {k₀ : Kern} {s t : Load} {c : Contents} {l : List (Phdr × U64)}

theorem getByte_zero (o : ℕ) : getByte (fun _ : Fin 512 => (0 : U64)) o = 0 := by
  rw [getByte]
  exact BitVec.extractLsb'_zero

/-- **A page of a segment.** -/
theorem loadPage_seen (hva : va < userEnd) (W : Seen k₀ s.kern c) (hcr3 : frame k₀.cr3 = k₀.pml4) :
    Meets (loadPage img ph va s) (fun _ => True) fun r =>
      r.1 = true → Seen k₀ r.2.kern (pageContents img (ph, va) c) := by
  obtain ⟨S, F⟩ := W.fill
  unfold loadPage
  refine Kern.meets_alloc F.spaces.trees.pmm (fun _ => ?_) fun t p ht h0 hT => ?_
  · simp only [if_true]
    exact meets_ok fun hc => Bool.noConfusion hc
  simp only [if_neg h0]
  rw [(Pmm.pageIdx_of_free F.spaces.trees.pmm ht).2]
  have hmap := @Kern.Filling.mapped k₀ s.kern S ⟨va, hva⟩ pageFlags t p (fun _ => 0) F ht hT pageFlags_user
    pageFlags_write
  refine (hmap.mono (fun _ _ => trivial) fun _ h => h).bind ?_
  rintro k1 ⟨S1, F1, M⟩
  have W1 : Seen k₀ k1 fun x => if x.1.toNat / pageSize = va.toNat / pageSize then some 0 else c x := by
    refine W.added F1 (Pmm.lt_of_free ht F.spaces.trees.phys) pageFlags_user (F.added ht M) (fun x hx _ => ?_)
      fun x hx => ?_
    · rw [if_pos ((Kern.samePage_iff x ⟨va, hva⟩).1 hx), getByte_zero]
      rfl
    · exact if_neg fun hc => hx ((Kern.samePage_iff x ⟨va, hva⟩).2 hc)
  unfold pageContents
  split_ifs
  · exact (W1.copyIn hcr3 (BitVec.lt_def.1 hva).le).bind fun k2 W2 => meets_ok fun _ => W2
  · exact meets_ok fun _ => W1

/-- **All pages.** -/
theorem loadTargets_seen (hl : ∀ p ∈ l, p.2 < userEnd) (W : Seen k₀ s.kern c) (hcr3 : frame k₀.cr3 = k₀.pml4)
    (h : loadTargets img l s = .ok (true, t)) : Seen k₀ t.kern (targetContents img l c) := by
  induction l generalizing s c with
  | nil =>
    obtain ⟨-, rfl⟩ := Prod.mk.inj (pure_ok.1 h)
    exact W
  | cons p l ih =>
    obtain ⟨hp, hl⟩ := forall_mem_cons.1 hl
    obtain ⟨⟨d, u⟩, hpage, h⟩ := bind_ok.1 h
    cases d with
    | false => cases h
    | true => exact ih hl ((loadPage_seen hp W hcr3).of_eq hpage rfl) h

end Seen

end Elf

end Uix
