/-
The initial stack of a program (`build_user_stack` in `src/core/cpu/exec.c`), read back the way the start-up code of a C
library reads it: `argc`, the words of `argv` and of `envp` up to a zero each, the pairs of the auxiliary vector up to
`AT_NULL`.

- `StoredIn`: what changed lies between two addresses, in the space and in physical memory.
- `writeBytes_stored`: bytes stored from an address on can be read there, and nothing else changed.
- `WordsAt.next`: a word stored is the word read.
- `build_user_stack_sysv`: the stack for every path that `do_execve` can copy.
-/
import Uix.Cpu.FlatImage

namespace Uix

open Machine Radix Radix.Format Bytes
open List hiding next
open Pmm (pageIdx pageAddr)

/-! ## What a program reads -/

section Read

variable (m : PhysMem) (root : ℕ)

/-- the number in `n` bytes, the lowest first -/
def userNumber : ℕ → U64 → Option ℕ
  | 0, _ => some 0
  | n + 1, va => do
    let b ← userByte m root va
    let rest ← userNumber n (va + 1)
    some (b.toNat + 256 * rest)

def userWord (va : U64) : Option U64 := (userNumber m root 8 va).map (BitVec.ofNat 64)

/-- the words before the first zero, and the address after it; at most `n` words are read -/
def userWords : ℕ → U64 → Option (List U64 × U64)
  | 0, _ => none
  | n + 1, va => do
    let w ← userWord m root va
    if w = 0 then some ([], va + 8) else
    let (ws, next) ← userWords n (va + 8)
    some (w :: ws, next)

/-- the pairs before `AT_NULL` -/
def userAuxv : ℕ → U64 → Option (List (U64 × U64))
  | 0, _ => none
  | n + 1, va => do
    let type ← userWord m root va
    if type = 0 then some [] else
    let value ← userWord m root (va + 8)
    let rest ← userAuxv n (va + 8 + 8)
    some ((type, value) :: rest)

/-- the bytes before the first NUL -/
def userString : ℕ → U64 → Option (List (BitVec 8))
  | 0, _ => none
  | n + 1, va => do
    let b ← userByte m root va
    if b = 0 then some [] else
    let rest ← userString n (va + 1)
    some (b :: rest)

/-- what the start-up code of a program finds from `rsp` up -/
structure StartFrame where
  argc : U64
  argv : List U64
  envp : List U64
  auxv : List (U64 × U64)
  deriving DecidableEq

def startFrame (n : ℕ) (rsp : U64) : Option StartFrame := do
  let argc ← userWord m root rsp
  let (argv, va) ← userWords m root n (rsp + 8)
  let (envp, va) ← userWords m root n va
  let auxv ← userAuxv m root n va
  some ⟨argc, argv, envp, auxv⟩

/-- the bytes can be read from `va` on -/
def BytesAt : U64 → List (BitVec 8) → Prop
  | _, [] => True
  | va, b :: bs => userByte m root va = some b ∧ BytesAt (va + 1) bs

def WordsAt (va : U64) (ws : List U64) : Prop := BytesAt m root va (ws.flatMap Kern.wordBytes)

/-- **The stack of a program called `path`**: one argument, no environment, `AT_PAGESZ` and `AT_RANDOM`. The words, the
random bytes and the string follow each other in this order. -/
structure SysvStack (path : List (BitVec 8)) (rsp argv0 random : U64) : Prop where
  aligned : rsp.toNat % 16 = 0
  frame : ∀ n ≥ 3, startFrame m root n rsp = some ⟨1, [argv0], [], [(6, 4096), (25, random)]⟩
  name : ∀ n > path.length, userString m root n argv0 = some path
  entropy : BytesAt m root random Kern.randomBytes
  apart : 0x7C0000 ≤ rsp.toNat ∧ rsp.toNat + 80 ≤ random.toNat ∧ random.toNat + 16 ≤ argv0.toNat ∧
    argv0.toNat + path.length + 1 ≤ 0x800000

end Read

section Decode

variable {m : PhysMem} {root : ℕ} {va : U64} {bs cs : List (BitVec 8)} {w : U64} {ws : List U64}

theorem userNumber_append (h : BytesAt m root va (bs ++ cs)) :
    userNumber m root bs.length va = some (Nat.ofDigits 256 (bs.map BitVec.toNat)) ∧
      BytesAt m root (va + BitVec.ofNat 64 bs.length) cs := by
  induction bs generalizing va with
  | nil =>
    refine ⟨rfl, ?_⟩
    rw [length_nil, BitVec.add_zero]
    exact h
  | cons b bs ih =>
    obtain ⟨hread, hrest⟩ := ih h.2
    refine ⟨?_, ?_⟩
    · rw [length_cons, userNumber, h.1, hread, map_cons, Nat.ofDigits_cons]
      rfl
    · rw [length_cons, BitVec.ofNat_add, BitVec.add_comm (BitVec.ofNat 64 bs.length), ← BitVec.add_assoc]
      exact hrest

theorem ofDigits_wordBytes (w : U64) : Nat.ofDigits 256 ((Kern.wordBytes w).map BitVec.toNat) = w.toNat := by
  have hw := w.isLt
  simp only [Kern.wordBytes, List.range, List.range.loop, map_cons, map_nil, Nat.ofDigits_cons, Nat.ofDigits_nil,
    BitVec.toNat_setWidth, BitVec.toNat_ushiftRight, Nat.shiftRight_eq_div_pow]
  norm_num
  omega

/-- **A word stored is the word read**, and the next one follows. -/
theorem WordsAt.next (h : WordsAt m root va (w :: ws)) : userWord m root va = some w ∧ WordsAt m root (va + 8) ws := by
  rw [WordsAt, flatMap_cons] at h
  obtain ⟨hread, hrest⟩ := userNumber_append h
  have hlen : (Kern.wordBytes w).length = 8 := by rw [Kern.wordBytes, length_map, length_range]
  rw [hlen] at hread hrest
  refine ⟨?_, hrest⟩
  rw [userWord, hread, Option.map_some, ofDigits_wordBytes, BitVec.ofNat_toNat, BitVec.setWidth_eq]

theorem userString_of_bytesAt {n : ℕ} (h : BytesAt m root va (bs ++ [0])) (hbs : 0 ∉ bs) (hn : bs.length < n) :
    userString m root n va = some bs := by
  induction bs generalizing va n with
  | nil =>
    obtain ⟨n, rfl⟩ := Nat.exists_eq_add_of_lt hn
    rw [userString, h.1]
    rfl
  | cons b bs ih =>
    rw [mem_cons, not_or] at hbs
    rw [length_cons] at hn
    obtain ⟨n, rfl⟩ : ∃ n', n = n' + 1 := ⟨n - 1, by omega⟩
    rw [userString, h.1]
    change (if b = 0 then some [] else _) = _
    rw [if_neg (Ne.symm hbs.1), ih h.2 hbs.2 (by omega)]
    rfl

/-- the words of the frame are read back as they were meant -/
theorem startFrame_of_words {n : ℕ} {rsp argv0 random : U64}
    (h : WordsAt m root rsp [1, argv0, 0, 0, 6, 4096, 25, random, 0, 0])
    (hargv : argv0 ≠ 0) (hn : 3 ≤ n) : startFrame m root n rsp = some ⟨1, [argv0], [], [(6, 4096), (25, random)]⟩ := by
  obtain ⟨h0, h⟩ := h.next
  obtain ⟨h1, h⟩ := h.next
  obtain ⟨h2, h⟩ := h.next
  obtain ⟨h3, h⟩ := h.next
  obtain ⟨h4, h⟩ := h.next
  obtain ⟨h5, h⟩ := h.next
  obtain ⟨h6, h⟩ := h.next
  obtain ⟨h7, h⟩ := h.next
  obtain ⟨h8, -⟩ := h.next
  obtain ⟨n, rfl⟩ : ∃ n', n = n' + 3 := ⟨n - 3, by omega⟩
  have hargs : userWords m root (n + 3) (rsp + 8) = some ([argv0], rsp + 8 + 8 + 8) := by
    rw [userWords, h1]
    change (if argv0 = 0 then _ else _) = _
    rw [if_neg hargv, userWords, h2]
    rfl
  have henv : userWords m root (n + 3) (rsp + 8 + 8 + 8) = some ([], rsp + 8 + 8 + 8 + 8) := by
    rw [userWords, h3]
    rfl
  have haux : userAuxv m root (n + 3) (rsp + 8 + 8 + 8 + 8) = some [(6, 4096), (25, random)] := by
    simp only [userAuxv, h4, h5, h6, h7, h8]
    rfl
  simp only [startFrame, h0, hargs, henv, haux, Option.bind_eq_bind, Option.bind_some]

end Decode

namespace Kern

variable {k₀ k k' k'' : Kern} {S : Finset ℕ} {va : UserAddr} {bs : List (BitVec 8)} {lo hi : ℕ}

/-! ## Stores -/

/-- only bytes from `lo` up to `hi` changed: the other addresses of the space read as before, and so does all of
physical memory that is not behind these -/
structure StoredIn (k₀ k k' : Kern) (lo hi : ℕ) : Prop where
  view : ∀ a : UserAddr, a.1.toNat < lo ∨ hi ≤ a.1.toNat → userByte k'.mem k₀.pml4 a.1 = userByte k.mem k₀.pml4 a.1
  translate : ∀ a : UserAddr, mmuTranslate k'.mem k₀.pml4 a.1 = mmuTranslate k.mem k₀.pml4 a.1
  phys : ∀ p, (∀ a : UserAddr, lo ≤ a.1.toNat → a.1.toNat < hi → mmuTranslate k.mem k₀.pml4 a.1 ≠ some p) →
    byteAt k'.mem p = byteAt k.mem p

theorem StoredIn.refl : StoredIn k₀ k k lo hi := ⟨fun _ _ => rfl, fun _ => rfl, fun _ _ => rfl⟩

theorem StoredIn.trans (h : StoredIn k₀ k k' lo hi) (h' : StoredIn k₀ k' k'' lo hi) : StoredIn k₀ k k'' lo hi := by
  refine ⟨fun a ha => (h'.view a ha).trans (h.view a ha), fun a => (h'.translate a).trans (h.translate a),
    fun p hp => ?_⟩
  rw [h'.phys p fun a h1 h2 => by rw [h.translate]; exact hp a h1 h2, h.phys p hp]

theorem StoredIn.mono {lo' hi' : ℕ} (h : StoredIn k₀ k k' lo hi) (hlo : lo' ≤ lo) (hhi : hi ≤ hi') :
    StoredIn k₀ k k' lo' hi' :=
  ⟨fun a ha => h.view a (by omega), h.translate, fun p hp => h.phys p fun a h1 h2 => hp a (by omega) (by omega)⟩

/-- what is mapped stays mapped -/
theorem StoredIn.mapped {S' : Finset ℕ} (h : StoredIn k₀ k k' lo hi) (F : Filling k₀ k S) (F' : Filling k₀ k' S')
    (a : UserAddr) : userByte k'.mem k₀.pml4 a.1 = none ↔ userByte k.mem k₀.pml4 a.1 = none := by
  have hr := mem_singleton_self k₀.pml4
  have htranslate := h.translate a
  rw [F.spaces.translate hr, F'.spaces.translate hr] at htranslate
  rw [F.view_eq_none, F'.view_eq_none, ← Option.map_eq_none_iff, htranslate, Option.map_eq_none_iff]

/-- **A byte stored.** -/
theorem Filling.write_stored (F : Filling k₀ k S) (hcr3 : frame k₀.cr3 = k₀.pml4) (b : BitVec 8)
    (hmapped : userByte k.mem k₀.pml4 va.1 ≠ none) :
    ∃ k', k.write false va.1 b = .ok k' ∧ Filling k₀ k' S ∧ userByte k'.mem k₀.pml4 va.1 = some b ∧
      StoredIn k₀ k k' va.1.toNat (va.1.toNat + 1) := by
  have hr := mem_singleton_self k₀.pml4
  rw [ne_eq, F.view_eq_none] at hmapped
  obtain ⟨p, hp⟩ := Option.ne_none_iff_exists'.1 hmapped
  obtain ⟨e, rfl, -⟩ := F.spaces.walk_plain hr va.lower hp
  have hp' : paging.walk k.mem 3 k.pml4 (idx va.1) = some (0, e) := by rw [F.regs.1, hp]
  have hview := F.view_stored hp' b
  have F' := F.stored hp' (va.1.toNat % pageSize) b
  have hA : Agree paging k.mem (k.putByte (frame e) (va.1.toNat % pageSize) b).mem 3 k₀.pml4 lowerHalf :=
    Agree.setPage (F.spaces.apart _ hr _ (frame_mem_frames (p := (0, e)) va.lower hp)) _ hr
  refine ⟨_, F.write_ok hcr3 hp false b, F', by rw [hview va, if_pos rfl], fun a ha => ?_, fun a => ?_, fun q hq => ?_⟩
  · rw [hview a, if_neg]
    rintro rfl
    omega
  · rw [F.spaces.translate hr, F'.spaces.translate hr, hA.walk a.lower]
  · -- the one byte that changed is the one behind `va`
    have hne := hq va (Nat.le_refl _) (Nat.lt_succ_self _)
    rw [F.spaces.translate hr, hp, Option.map_some, ne_eq, Option.some.injEq] at hne
    rw [byteAt, byteAt]
    by_cases hf : q / pageSize = frame e
    · rw [hf, putByte_self, getByte_setByte _ _ (mod_pageSize_lt _) (mod_pageSize_lt _), if_neg]
      intro ho
      exact hne (by rw [← hf, ← ho]; exact Nat.div_add_mod' q pageSize)
    · rw [putByte_of_ne hf]

/-- other bytes stay -/
theorem StoredIn.bytes {va : U64} (hs : StoredIn k₀ k k' lo hi) (h : BytesAt k.mem k₀.pml4 va bs)
    (hva : va.toNat + bs.length ≤ 2 ^ 47) (hapart : va.toNat + bs.length ≤ lo ∨ hi ≤ va.toNat) :
    BytesAt k'.mem k₀.pml4 va bs := by
  induction bs generalizing va with
  | nil => trivial
  | cons b bs ih =>
    rw [length_cons] at hva hapart
    obtain ⟨hlt, hnext⟩ := user_next (v := va) (by omega)
    exact ⟨(hs.view ⟨va, hlt⟩ (by dsimp only; omega)).trans h.1, ih h.2 (by omega) (by omega)⟩

/-- **Bytes stored** where pages are mapped -/
theorem writeBytes_stored {va : U64} (F : Filling k₀ k S) (hcr3 : frame k₀.cr3 = k₀.pml4)
    (hva : va.toNat + bs.length ≤ 2 ^ 47)
    (hmapped : ∀ a : UserAddr, va.toNat ≤ a.1.toNat → a.1.toNat < va.toNat + bs.length →
    userByte k.mem k₀.pml4 a.1 ≠ none) :
    ∃ k', writeBytes bs va k = .ok k' ∧ Filling k₀ k' S ∧ BytesAt k'.mem k₀.pml4 va bs ∧
      StoredIn k₀ k k' va.toNat (va.toNat + bs.length) := by
  induction bs generalizing va k with
  | nil => exact ⟨k, rfl, F, trivial, .refl⟩
  | cons b bs ih =>
    rw [length_cons] at hva hmapped ⊢
    obtain ⟨hlt, hnext⟩ := user_next (v := va) (by omega)
    obtain ⟨k1, hwrite, F1, hbyte, hs1⟩ :=
      @Filling.write_stored k₀ k S ⟨va, hlt⟩ F hcr3 b (hmapped ⟨va, hlt⟩ (Nat.le_refl _) (by dsimp only; omega))
    dsimp only at hwrite hbyte hs1
    obtain ⟨k2, hrun, F2, hbytes, hs2⟩ := @ih k1 (va + 1) F1 (by omega) fun a h1 h2 hc =>
      hmapped a (by omega) (by omega) ((hs1.mapped F F1 a).1 hc)
    refine ⟨k2, ?_, F2, ⟨?_, hbytes⟩, (hs1.mono (Nat.le_refl _) (by omega)).trans (hs2.mono (by omega) (by omega))⟩
    · rw [writeBytes, hwrite]
      exact hrun
    · exact (hs2.view ⟨va, hlt⟩ (by dsimp only; omega)).trans hbyte

/-! ## `build_user_stack` -/

/-- **The initial stack is a valid SysV stack**, for every path that fits: `rsp` is aligned, the frame reads back as one
argument, no environment, `AT_PAGESZ` and `AT_RANDOM`, the string and the random bytes are intact, and only bytes of the
stack change. -/
theorem build_user_stack_sysv (k₀ k : Kern) (S : Finset ℕ) (F : Filling k₀ k S) (hcr3 : frame k₀.cr3 = k₀.pml4)
    (hstack : ∀ a : UserAddr, 0x7C0000 ≤ a.1.toNat → a.1.toNat < 0x800000 → userByte k.mem k₀.pml4 a.1 ≠ none)
    (path : List (BitVec 8)) (hpath : path.length ≤ 63) (hnul : 0 ∉ path) :
    ∃ rsp argv0 random k', Kern.buildUserStack path k = .ok (rsp, k') ∧ SysvStack k'.mem k₀.pml4 path rsp argv0 random ∧
      StoredIn k₀ k k' 0x7C0000 0x800000 := by
  obtain ⟨hargv, hrandom, hrsp⟩ := stack_addrs hpath
  obtain ⟨hname, hentropy, hwords⟩ := stack_lengths path
  -- the three stores, from the top down
  obtain ⟨k1, hw1, F1, hb1, hs1⟩ :=
    @writeBytes_stored k₀ k S (path ++ [0]) (argvAt path) F hcr3 (by omega) fun a h1 h2 =>
    hstack a (by omega) (by omega)
  obtain ⟨k2, hw2, F2, hb2, hs2⟩ :=
    @writeBytes_stored k₀ k1 S randomBytes (randomAt path) F1 hcr3 (by omega) fun a h1 h2 hc =>
    hstack a (by omega) (by omega) ((hs1.mapped F F1 a).1 hc)
  obtain ⟨k3, hw3, F3, hb3, hs3⟩ :=
    @writeBytes_stored k₀ k2 S _ (rspAt path) F2 hcr3 (by rw [hwords]; omega) fun a h1 h2 hc => by
    rw [hwords] at h2
    exact hstack a (by omega) (by omega) ((hs1.mapped F F1 a).1 ((hs2.mapped F1 F2 a).1 hc))
  rw [hname] at hs1
  rw [hentropy] at hs2
  rw [hwords] at hs3
  refine ⟨rspAt path, argvAt path, randomAt path, k3, ?_, ?_, ?_⟩
  · rw [buildUserStack_eq]
    exact bind_ok.2 ⟨k1, hw1, bind_ok.2 ⟨k2, hw2, bind_ok.2 ⟨k3, hw3, rfl⟩⟩⟩
  · have hb1' := hs3.bytes (hs2.bytes hb1 (by omega) (by omega)) (by omega) (by omega)
    constructor
    case aligned => omega
    case frame =>
      refine fun n hn => startFrame_of_words hb3 ?_ hn
      intro hzero
      rw [hzero, show (0 : U64).toNat = 0 from rfl] at hargv
      omega
    case name => exact fun n hn => userString_of_bytesAt hb1' hnul hn
    case entropy => exact hs3.bytes hb2 (by omega) (by omega)
    case apart => omega
  · exact ((hs1.mono (by omega) (by omega)).trans (hs2.mono (by omega) (by omega))).trans
      (hs3.mono (by omega) (by omega))

/-- the stack for `"/sh"` -/
theorem sh_stack_sysv : ∃ k₀ k rsp argv0 random k', Kern.buildUserStack Exec.shName k = .ok (rsp, k') ∧
    SysvStack k'.mem k₀.pml4 Exec.shName rsp argv0 random ∧ StoredIn k₀ k k' 0x7C0000 0x800000 := by
  have hk := (Exec.scarceState_caller 1000 none (by decide)).live.spaces.trees
  have hcard : (Exec.scarceState 1000 none).kern.pmm.freeSet.card = 1000 := by
    rw [Exec.scarceState, Exec.scarceKern, Exec.scarcePmm_free, Nat.card_Ico]
  obtain ⟨⟨cr3, k1⟩, -, d, rfl, C⟩ := (vmmCreateSpace_spec hk.pmm).exists_ok fun st hst => by
    rw [hst.2, Finset.card_empty] at hcard
    omega
  dsimp only at C
  have hfresh := (C.freshSpace hk.phys).1
  have hroom : (k1.vmmSwitch (pageAddr d)).pmm.freeSet.card + 1 = 1000 := (card_of_taken C.takes).trans hcard
  obtain ⟨k2, -, hs, W, -⟩ := hfresh.stack (by omega)
  obtain ⟨S, F⟩ := W.fill
  rw [← append_nil stackPages.reverse] at hs
  exact ⟨_, k2, build_user_stack_sysv _ k2 S F hfresh.cr3 (hs.stack_read F) Exec.shName (by decide) (by decide)⟩

end Kern

end Uix
