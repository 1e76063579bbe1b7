/-
The memory management unit: the page walk of the processor, what ring 3 reads, and stores with their page fault.

The walk reads the tables in memory; translation caches are not part of this module. A store that the tables do not
allow raises a page fault with the error code of a write. `isr_dispatch` hands it to `vmm_page_fault`, and the store is
tried once more if that returns 0. The write-protect bit of CR0 is set (Limine sets it), so the kernel's own stores
fault on read-only pages too.

- `mmuWalk_walk`: the processor and `vmm.c` walk alike.
- `mmuWalk_perm`: below tables that allow everything, the leaf alone decides what is allowed.
- `userByte_leaf`: what ring 3 reads through a 4 KiB leaf.
-/
import Uix.Lib.Bytes
import Uix.Memory.VmmSpec

namespace Uix

open Machine Radix Radix.Format Bytes List
open Pmm (pageIdx pageAddr)
open Kern (TableLink)

/-- `VMM_WRITE` as a bit of an entry -/
def writeBit : U64 := vmmWrite.setWidth 64

variable {m : PhysMem} {l f : ℕ} {x : ℕ → Fin 512} {t : Leaf}

/-! ## The walk -/

/-- the end of a walk: the leaf and its level, and what all entries on the way allow together -/
structure Leaf where
  level : ℕ
  entry : U64
  write : Bool
  user : Bool
  noexec : Bool
  deriving DecidableEq, Repr

/-- a leaf by itself -/
def Leaf.ofEntry (l : ℕ) (e : U64) : Leaf := ⟨l, e, has e writeBit, has e vmmUser, has e vmmNoexec⟩

/-- a leaf reached through the entry `e` -/
def Leaf.through (e : U64) (t : Leaf) : Leaf :=
  { t with
    write := t.write && has e writeBit
    user := t.user && has e vmmUser
    noexec := t.noexec || has e vmmNoexec }

/-- the walk from table `f` of level `l`: bit 7 ends it in a page-directory pointer table and in a page directory -/
def mmuWalk (m : PhysMem) : ℕ → ℕ → (ℕ → Fin 512) → Option Leaf
  | 0, f, x => if has (m f (x 0)) vmmPresent then some (.ofEntry 0 (m f (x 0))) else none
  | l + 1, f, x =>
    let e := m f (x (l + 1))
    if !has e vmmPresent then none else
    if l < 2 ∧ has e pdePs then some (.ofEntry (l + 1) e) else (mmuWalk m l (frame e) x).map (Leaf.through e)

/-- where the walk goes on -/
theorem link_of_walk {e : U64} (hp : ¬ (!has e vmmPresent) = true) (hs : ¬ (l < 2 ∧ has e pdePs = true)) :
    paging.link l e = true := by
  by_contra hl
  simp only [Format.link, paging, show has e vmmPresent = true by simpa using hp, Bool.true_and, Bool.not_eq_true,
    Bool.not_eq_false', Bool.and_eq_true, Bool.or_eq_true, beq_iff_eq] at hl
  exact hs ⟨by omega, hl.2⟩

theorem mmuWalk_link (h : paging.link l (m f (x (l + 1))) = true) :
    mmuWalk m (l + 1) f x =
      (mmuWalk m l (frame (m f (x (l + 1)))) x).map (Leaf.through (m f (x (l + 1)))) := by
  have hp : has (m f (x (l + 1))) vmmPresent = true := link_present h
  have hs : ¬ (l < 2 ∧ has (m f (x (l + 1))) pdePs = true) := by
    rintro ⟨hl, hs⟩
    rw [not_paging_link hl hs] at h
    exact absurd h (by decide)
  simp only [mmuWalk, hp, Bool.not_true, Bool.false_eq_true, if_false, if_neg hs]

theorem mmuWalk_large (hl : paging.link l (m f (x (l + 1))) = false) (hp : has (m f (x (l + 1))) vmmPresent = true) :
    mmuWalk m (l + 1) f x = some (.ofEntry (l + 1) (m f (x (l + 1)))) := by
  have hs : l < 2 ∧ has (m f (x (l + 1))) pdePs = true := by
    by_contra hs
    rw [link_of_walk (by rw [hp]; decide) hs] at hl
    cases hl
  simp only [mmuWalk, hp, Bool.not_true, Bool.false_eq_true, if_false, if_pos hs]

theorem mmuWalk_absent (hp : has (m f (x l)) vmmPresent = false) :
    mmuWalk m l f x = none := by
  cases l <;> simp [mmuWalk, hp]

/-- **The processor and `vmm.c` walk alike.** -/
theorem mmuWalk_walk (m : PhysMem) (l f : ℕ) (x : ℕ → Fin 512) :
    (mmuWalk m l f x).map (fun t => (t.level, t.entry)) = paging.walk m l f x := by
  induction l generalizing f with
  | zero =>
    cases hp : has (m f (x 0)) vmmPresent with
    | true =>
      rw [walk_zero hp, mmuWalk, if_pos hp]
      rfl
    | false =>
      rw [walk_absent hp, mmuWalk_absent hp]
      rfl
  | succ l ih =>
    cases hl : paging.link l (m f (x (l + 1))) with
    | true =>
      rw [mmuWalk_link hl, walk_link hl, Option.map_map, ← ih]
      rfl
    | false =>
      cases hp : has (m f (x (l + 1))) vmmPresent with
      | true =>
        rw [mmuWalk_large hl hp, walk_large hl hp]
        rfl
      | false =>
        rw [mmuWalk_absent hp, walk_absent hp]
        rfl

/-- what holds of every leaf by itself, and is kept by the entries on the way, holds of the leaf that is found -/
theorem mmuWalk_induct {P : Leaf → Prop}
    (hleaf : ∀ j ≤ 2, ∀ e, P (.ofEntry j e)) (hthrough : ∀ e ∈ paging.linksAt m l f (x l), ∀ t, P t → P (t.through e))
    (h : mmuWalk m l f x = some t) : P t := by
  induction l generalizing f t with
  | zero =>
    simp only [mmuWalk] at h
    split_ifs at h
    exact Option.some.inj h ▸ hleaf 0 (Nat.zero_le 2) _
  | succ l ih =>
    simp only [mmuWalk] at h
    split_ifs at h with hp hs
    · exact Option.some.inj h ▸ hleaf (l + 1) hs.1 _
    · rw [linksAt_link (link_of_walk hp hs)] at hthrough
      obtain ⟨t', ht', rfl⟩ := Option.map_eq_some_iff.1 h
      refine hthrough _ mem_cons_self _ (ih (fun e he => ?_) ht')
      exact hthrough e (mem_cons_of_mem _ (mem_flatMap.2 ⟨_, mem_finRange _, he⟩))

/-- **Below tables that allow everything the leaf decides.** -/
theorem mmuWalk_perm (hl : ∀ e ∈ paging.linksAt m l f (x l), TableLink e) (h : mmuWalk m l f x = some t) :
    t.write = has t.entry writeBit ∧ t.user = has t.entry vmmUser := by
  refine mmuWalk_induct (P := fun t => t.write = has t.entry writeBit ∧ t.user = has t.entry vmmUser)
    (fun _ _ _ => ⟨rfl, rfl⟩) ?_ h
  rintro e he t ⟨hw, hu⟩
  have htop := hl e he
  simp only [Leaf.through, hw, hu, show has _ writeBit = true from htop.1, htop.2.1, Bool.and_true, and_self]

/-! ## Bytes -/

/-- the physical address of `va` through a leaf -/
def Leaf.physAddr (t : Leaf) (va : U64) : ℕ :=
  frame t.entry * pageSize / 2 ^ (12 + 9 * t.level) * 2 ^ (12 + 9 * t.level) + va.toNat % 2 ^ (12 + 9 * t.level)

/-- the byte at a physical address -/
def byteAt (m : PhysMem) (a : ℕ) : BitVec 8 := getByte (m (a / pageSize)) (a % pageSize)

theorem physAddr_page (h : t.level = 0) (va : U64) :
    t.physAddr va / pageSize = frame t.entry ∧ t.physAddr va % pageSize = va.toNat % pageSize := by
  have : t.physAddr va = frame t.entry * 4096 + va.toNat % 4096 := by
    simp [Leaf.physAddr, h, pageSize]
  simp only [this, pageSize]
  omega

/-- what ring 3 reads at `va` in the space with the given root; `none` is a fault -/
def userByte (m : PhysMem) (root : ℕ) (va : U64) : Option (BitVec 8) :=
  match mmuWalk m 3 root (idx va) with
  | some t => if t.user then some (byteAt m (t.physAddr va)) else none
  | none => none

/-- bits 47 .. 63 are equal; any other address is a general protection fault -/
def Canonical (va : U64) : Prop := va.toNat < 2 ^ 47 ∨ 2 ^ 64 - 2 ^ 47 ≤ va.toNat

instance (va : U64) : Decidable (Canonical va) := inferInstanceAs (Decidable (_ ∨ _))

/-- an address of the user half -/
abbrev UserAddr := { va : U64 // va < 0x0000800000000000#64 }

theorem UserAddr.canonical (va : UserAddr) : Canonical va.1 := .inl (BitVec.lt_def.1 va.2)

/-- an address below the end of the user half, and the next one -/
theorem user_next {v : U64} (h : v.toNat < 2 ^ 47) : v < 0x0000800000000000#64 ∧ (v + 1).toNat = v.toNat + 1 := by
  refine ⟨BitVec.lt_def.2 (by rw [BitVec.toNat_ofNat]; omega), ?_⟩
  rw [BitVec.toNat_add, show (1 : U64).toNat = 1 from rfl, Nat.mod_eq_of_lt (by omega)]

theorem UserAddr.lower (va : UserAddr) : idx va.1 3 ∈ lowerHalf := by
  have h : va.1.toNat < 2 ^ 47 := BitVec.lt_def.1 va.2
  rw [Kern.mem_lowerHalf, idx, slot_val]
  norm_num
  omega

/-- **A read through a 4 KiB leaf.** -/
theorem userByte_leaf {r : ℕ} {va : U64} {e : U64}
    (hl : ∀ e ∈ paging.linksAt m 3 r (idx va 3), TableLink e) (hw : paging.walk m 3 r (idx va) = some (0, e))
    (hu : has e vmmUser = true) : userByte m r va = some (getByte (m (frame e)) (va.toNat % pageSize)) := by
  have h := mmuWalk_walk m 3 r (idx va)
  rw [hw, Option.map_eq_some_iff] at h
  obtain ⟨t, ht, hte⟩ := h
  rw [Prod.mk.injEq] at hte
  obtain ⟨h1, h2⟩ := physAddr_page hte.1 va
  simp only [userByte, ht, (mmuWalk_perm hl ht).2, hte.2, hu, if_true, byteAt, h1, h2]

theorem userByte_absent {r : ℕ} {va : U64} (hw : paging.walk m 3 r (idx va) = none) :
    userByte m r va = none := by
  have h := mmuWalk_walk m 3 r (idx va)
  rw [hw, Option.map_eq_none_iff] at h
  simp only [userByte, h]

namespace Kern

/-! ## Stores -/

/-- a byte written at a physical address -/
def storeByte (k : Kern) (a : ℕ) (b : BitVec 8) : Kern :=
  { k with mem := Function.update k.mem (a / pageSize) (setByte (k.mem (a / pageSize)) (a % pageSize) b) }

/-- a store by ring 3 or by the kernel, if the tables of the active space allow it -/
def store (k : Kern) (ring3 : Bool) (va : U64) (b : BitVec 8) : Option Kern :=
  match mmuWalk k.mem 3 (frame k.cr3) (idx va) with
  | some t => if (t.user || !ring3) && t.write then some (k.storeByte (t.physAddr va) b) else none
  | none => none

/-- the error code of a page fault on a write: present, write, user -/
def writeFaultCode (k : Kern) (ring3 : Bool) (va : U64) : U64 :=
  (if (mmuWalk k.mem 3 (frame k.cr3) (idx va)).isSome then 1 else 0) ||| 2 ||| (if ring3 then 4 else 0)

/-- a write with its page fault. The entry that `vmm_page_fault` leaves carries no mark, so it would not repair a second
fault. -/
def write (k : Kern) (ring3 : Bool) (va : U64) (b : BitVec 8) : Except Stop Kern :=
  if ¬ Canonical va then .error (.panic .unhandled) else
  match k.store ring3 va b with
  | some k => pure k
  | none => do
    let (r, k) ← k.vmmPageFault va (k.writeFaultCode ring3 va)
    if r ≠ 0 then .error (.panic .unhandled) else
    match k.store ring3 va b with
    | some k => pure k
    | none => .error (.panic .unhandled)

end Kern

end Uix
