/-
The heap in terms of its blocks. `Rep h used free` says that the heap's memory holds the blocks `used` and `free`
(start, size): together they tile the region below `heap_brk`, their headers carry their sizes and magics, and the free
list links exactly the blocks of `free`, in that order.

- `take_rep`: allocating from a block of the free list.
- `addSuper_rep`: growing.
- `merge_rep`, `kfree_rep`: giving a block back, with the rebuilt list.
-/
import Uix.Lib.Links
import Uix.Lib.Tiles
import Uix.Memory.Heap

namespace Uix.Heap

open Bytes Links Tiles List Function

/-! ## Headers -/

/-- the headers of `b` and `c` do not overlap -/
def HdrApart (b c : ℕ) : Prop := b + hdrSize ≤ c ∨ c + hdrSize ≤ b

/-- `m'` differs from `m` at most in the headers at `H` -/
def Only (H : List ℕ) (m m' : ℕ → BitVec 8) : Prop := ∀ x, (∀ b ∈ H, x < b ∨ b + hdrSize ≤ x) → m' x = m x

theorem Only.refl (H : List ℕ) (m : ℕ → BitVec 8) : Only H m m := fun _ _ => rfl

theorem Only.trans {H H' : List ℕ} {m m' m'' : ℕ → BitVec 8} (h : Only H m m') (h' : Only H' m' m'') :
    Only (H ++ H') m m'' := fun x hx =>
  (h' x fun b hb => hx b (mem_append_right H hb)).trans (h x fun b hb => hx b (mem_append_left H' hb))

theorem Only.mono {H H' : List ℕ} {m m' : ℕ → BitVec 8} (h : Only H m m') (hs : ∀ b ∈ H, b ∈ H') : Only H' m m' :=
  fun x hx => h x fun b hb => hx b (hs b hb)

theorem only_setSize (h : Heap) (b v : ℕ) : Only [b] h.mem (h.setSize b v).mem := fun x hx =>
  store_of_lt (by have := hx b (by simp); unfold hdrSize at this; omega)

theorem only_setMagic (h : Heap) (b v : ℕ) : Only [b] h.mem (h.setMagic b v).mem := fun x hx =>
  store_of_lt (by have := hx b (by simp); unfold hdrSize at this; omega)

theorem only_setNext (h : Heap) (b v : ℕ) : Only [b] h.mem (h.setNext b v).mem := fun x hx =>
  store_of_lt (by have := hx b (by simp); unfold hdrSize at this; omega)

/-- a header apart from the headers written keeps its fields -/
theorem Only.hdr {H : List ℕ} {m m' : ℕ → BitVec 8} (h : Only H m m') {c : ℕ} (hc : ∀ b ∈ H, HdrApart b c) :
    size m' c = size m c ∧ magic m' c = magic m c ∧ next m' c = next m c := by
  have key : ∀ x, c ≤ x → x < c + hdrSize → m' x = m x := fun x h1 h2 => h x fun b hb => by
    have := hc b hb
    unfold HdrApart at this
    omega
  unfold hdrSize at key
  exact ⟨load_congr fun x h1 h2 => key x h1 (by omega), load_congr fun x h1 h2 => key x (by omega) (by omega),
    load_congr fun x h1 h2 => key x (by omega) (by omega)⟩

variable (h : Heap) (b v : ℕ)

@[simp] theorem size_setSize (hv : v < 2 ^ 32) : size (h.setSize b v).mem b = v := load_store_eq hv
@[simp] theorem magic_setSize : magic (h.setSize b v).mem b = magic h.mem b :=
  load_store_of_disjoint (Or.inl le_rfl)
@[simp] theorem next_setSize : next (h.setSize b v).mem b = next h.mem b :=
  load_store_of_disjoint (Or.inl (by omega))
@[simp] theorem size_setMagic : size (h.setMagic b v).mem b = size h.mem b :=
  load_store_of_disjoint (Or.inr le_rfl)
@[simp] theorem magic_setMagic (hv : v < 2 ^ 32) : magic (h.setMagic b v).mem b = v := load_store_eq hv
@[simp] theorem next_setMagic : next (h.setMagic b v).mem b = next h.mem b :=
  load_store_of_disjoint (Or.inl le_rfl)
@[simp] theorem size_setNext : size (h.setNext b v).mem b = size h.mem b :=
  load_store_of_disjoint (Or.inr (by omega))
@[simp] theorem magic_setNext : magic (h.setNext b v).mem b = magic h.mem b :=
  load_store_of_disjoint (Or.inr le_rfl)
@[simp] theorem next_setNext (hv : v < 2 ^ 64) : next (h.setNext b v).mem b = v := load_store_eq hv

/-! ## The representation -/

structure Rep (h : Heap) (used free : List (ℕ × ℕ)) : Prop where
  tiling : Tiling heapVaBase h.heapBrk (used ++ free)
  hdr : ∀ b ∈ used ++ free, hdrSize < b.2 ∧ size h.mem b.1 = b.2
  usedMagic : ∀ b ∈ used, magic h.mem b.1 = bmagicUsed
  freeMagic : ∀ b ∈ free, magic h.mem b.1 = bmagicFree
  chain : Chain (next h.mem) h.freelist (free.map Prod.fst)
  base : heapVaBase ≤ h.heapBrk
  lim : h.heapBrk < 2 ^ 64

/-- blocks that do not overlap have headers that do not overlap -/
theorem hdrApart_of_apart {b c : ℕ × ℕ} (h : Apart b c) (hb : hdrSize < b.2) (hc : hdrSize < c.2) :
    HdrApart b.1 c.1 := by
  unfold HdrApart Apart at *
  omega

theorem Rep.bounds {h : Heap} {used free : List (ℕ × ℕ)} (hr : Rep h used free) {b : ℕ × ℕ} (hb : b ∈ used ++ free) :
    heapVaBase ≤ b.1 ∧ b.1 + b.2 < 2 ^ 64 := by
  have h1 := hr.tiling.bounds hb
  have h2 := hr.lim
  omega

theorem Rep.hdrApart {h : Heap} {used free : List (ℕ × ℕ)} (hr : Rep h used free) {b c : ℕ × ℕ}
    (hb : b ∈ used ++ free) (hc : c ∈ used ++ free) (hne : b ≠ c) : HdrApart b.1 c.1 :=
  hdrApart_of_apart (hr.tiling.apart_of_ne hb hc hne) (hr.hdr b hb).1 (hr.hdr c hc).1

/-- the parts of a list of blocks that a permutation may rearrange -/
theorem Rep.perm_used {h : Heap} {used used' free : List (ℕ × ℕ)} (hr : Rep h used free) (hp : used.Perm used') :
    Rep h used' free where
  tiling := hr.tiling.perm (hp.append_right free)
  hdr b hb := hr.hdr b ((hp.append_right free).mem_iff.2 hb)
  usedMagic b hb := hr.usedMagic b (hp.mem_iff.2 hb)
  freeMagic := hr.freeMagic
  chain := hr.chain
  base := hr.base
  lim := hr.lim

/-! ## Taking a block -/

section Take

variable {h : Heap} {need : ℕ} {prev : Option ℕ} {b : ℕ}

/-- what a block taken through `prev` does to the rest: the headers written are those at `H`, and the link that led to
the block leads to `v` -/
structure Took (h h' : Heap) (H : List ℕ) (prev : Option ℕ) (v : ℕ) : Prop where
  only : Only (H ++ prev.toList) h.mem h'.mem
  head : h'.freelist = if prev = none then v else h.freelist
  link : ∀ q, prev = some q → size h'.mem q = size h.mem q ∧ magic h'.mem q = magic h.mem q ∧ next h'.mem q = v
  brk : h'.heapBrk = h.heapBrk

theorem only_setLink (h : Heap) (prev : Option ℕ) (v : ℕ) : Only prev.toList h.mem (h.setLink prev v).mem := by
  cases prev with
  | none => exact Only.refl _ _
  | some q => exact only_setNext h q v

theorem take_split (h : Heap) (need : ℕ) (prev : Option ℕ) (b : ℕ) (hs : hdrSize + 16 ≤ size h.mem b - need)
    (hn : hdrSize < need) (hb : b + size h.mem b < 2 ^ 64)
    (hq : ∀ q, prev = some q → HdrApart q b ∧ HdrApart q (b + need)) :
    Took h (h.take need prev b) [b + need, b] prev (b + need) ∧
    (size (h.take need prev b).mem b = need ∧ magic (h.take need prev b).mem b = bmagicUsed) ∧
    (size (h.take need prev b).mem (b + need) = size h.mem b - need ∧
      magic (h.take need prev b).mem (b + need) = bmagicFree ∧
      next (h.take need prev b).mem (b + need) = next h.mem b) := by
  have h32 : size h.mem b < 2 ^ 32 := load_lt h.mem b 4
  have h64 : next h.mem b < 2 ^ 64 := load_lt h.mem (b + 8) 8
  have e1 : bmagicUsed < 256 ^ 4 := by decide
  have e2 : bmagicFree < 256 ^ 4 := by decide
  have p4 : (256 : ℕ) ^ 4 = 2 ^ 32 := by norm_num
  have p8 : (256 : ℕ) ^ 8 = 2 ^ 64 := by norm_num
  simp only [take, if_pos hs]
  refine and_assoc.1 ⟨⟨⟨?_, ?_, fun q hp => ?_, ?_⟩, ?_⟩, ?_⟩
  · refine ((only_setSize h _ _).trans <| (only_setMagic _ _ _).trans <| (only_setNext _ _ _).trans <|
      (only_setSize _ b _).trans <| (only_setLink _ prev _).trans <| (only_setMagic _ b _).trans
        (only_setNext _ b _)).mono fun x hx => ?_
    clear hs
    grind
  · cases prev <;> rfl
  · subst hp
    obtain ⟨q1, q2⟩ := hq q rfl
    unfold HdrApart hdrSize at *
    unfold size next at *
    simp only [setLink, setSize, setMagic, setNext, magic]
    simp (disch := omega) only [load_store_of_disjoint, load_store_eq, and_self]
  · cases prev <;> rfl
  all_goals
    unfold HdrApart hdrSize at *
    unfold size next at *
    rcases prev with - | q
    case' some => obtain ⟨q1, q2⟩ := hq q rfl
    all_goals
      simp only [setLink, setSize, setMagic, setNext, magic]
      simp (disch := omega) only [load_store_of_disjoint, load_store_eq, and_self]

theorem take_whole (h : Heap) (need : ℕ) (prev : Option ℕ) (b : ℕ) (hs : ¬ hdrSize + 16 ≤ size h.mem b - need)
    (hq : ∀ q, prev = some q → HdrApart q b) :
    Took h (h.take need prev b) [b] prev (next h.mem b) ∧
    size (h.take need prev b).mem b = size h.mem b ∧ magic (h.take need prev b).mem b = bmagicUsed := by
  have h64 : next h.mem b < 2 ^ 64 := load_lt h.mem (b + 8) 8
  have e1 : bmagicUsed < 256 ^ 4 := by decide
  have p8 : (256 : ℕ) ^ 8 = 2 ^ 64 := by norm_num
  simp only [take, if_neg hs]
  refine ⟨⟨?_, ?_, fun q hp => ?_, ?_⟩, ?_⟩
  · refine ((only_setLink h prev _).trans <| (only_setMagic _ b _).trans (only_setNext _ b _)).mono fun x hx => ?_
    clear hs
    grind
  · cases prev <;> rfl
  · subst hp
    have q1 := hq q rfl
    unfold HdrApart hdrSize at *
    unfold size next at *
    simp only [setLink, setMagic, setNext, magic]
    simp (disch := omega) only [load_store_of_disjoint, load_store_eq, and_self]
  · cases prev <;> rfl
  · unfold HdrApart hdrSize at *
    unfold size next at *
    rcases prev with - | q
    case' some => have q1 := hq q rfl
    all_goals
      simp only [setLink, setMagic, setNext, magic]
      simp (disch := omega) only [load_store_of_disjoint, load_store_eq, and_self]

variable {h' : Heap} {used pre post : List (ℕ × ℕ)} {sz v : ℕ} {H : List ℕ}

/-- the block taken, in front -/
theorem Rep.tiling_front (hr : Rep h used (pre ++ (b, sz) :: post)) :
    Tiling heapVaBase h.heapBrk ((b, sz) :: (used ++ (pre ++ post))) :=
  hr.tiling.perm (by grind)

theorem Rep.apart_front (hr : Rep h used (pre ++ (b, sz) :: post)) {c : ℕ × ℕ} (hc : c ∈ used ++ (pre ++ post)) :
    Apart (b, sz) c ∧ hdrSize < c.2 ∧ c ∈ used ++ (pre ++ (b, sz) :: post) :=
  have hm : c ∈ used ++ (pre ++ (b, sz) :: post) := by grind
  ⟨(pairwise_cons.1 hr.tiling_front.apart).1 c hc, (hr.hdr c hm).1, hm⟩

theorem getLast_of_prev {pre : List (ℕ × ℕ)} {q : ℕ} (hp : (pre.map Prod.fst).getLast? = some q) :
    ∃ pre' s, pre = pre' ++ [(q, s)] := by
  rcases eq_nil_or_concat pre with rfl | ⟨l, ⟨q', s⟩, rfl⟩
  · simp at hp
  · simp only [concat_eq_append, map_append, map_cons, map_nil, getLast?_append,
      getLast?_singleton, Option.some_or, Option.some.injEq] at hp
    exact ⟨l, s, by rw [hp, concat_eq_append]⟩

section Took

variable (ht : Took h h' H prev v) (hr : Rep h used (pre ++ (b, sz) :: post))
  (hp : (pre.map Prod.fst).getLast? = prev)
  (hH : ∀ c : ℕ × ℕ, Apart (b, sz) c → hdrSize < c.2 → ∀ x ∈ H, HdrApart x c.1)
include ht hr hp hH

/-- the blocks other than the one taken keep their headers, up to the link that led to it -/
theorem Took.others {c : ℕ × ℕ} (hc : c ∈ used ++ (pre ++ post)) :
    size h'.mem c.1 = size h.mem c.1 ∧ magic h'.mem c.1 = magic h.mem c.1 ∧
      (prev ≠ some c.1 → next h'.mem c.1 = next h.mem c.1) := by
  obtain ⟨ha, hc2, hcm⟩ := hr.apart_front hc
  by_cases hq : prev = some c.1
  · obtain ⟨h1, h2, _⟩ := ht.link c.1 hq
    exact ⟨h1, h2, fun hne => absurd hq hne⟩
  · have key := ht.only.hdr (c := c.1) fun x hx => by
      rcases mem_append.1 hx with hx | hx
      · exact hH c ha hc2 x hx
      · obtain rfl : prev = some x := Option.mem_toList.1 hx
        obtain ⟨pre', s, rfl⟩ := getLast_of_prev hp
        exact hr.hdrApart (b := (x, s)) (by simp) hcm fun he => hq (by rw [← he])
    exact ⟨key.1, key.2.1, fun _ => key.2.2⟩

/-- the free list after the block is taken: the blocks before it, then what the redirected link leads to -/
theorem Took.chain {l : List ℕ} (hl : Chain (next h'.mem) v l) :
    Chain (next h'.mem) h'.freelist (pre.map Prod.fst ++ l) := by
  refine seg_append.2 ⟨v, ?_, hl⟩
  rw [ht.head]
  cases prev with
  | none =>
    obtain rfl : pre = [] := by simpa using hp
    rfl
  | some q =>
    rw [if_neg (Option.some_ne_none q)]
    obtain ⟨pre', s, rfl⟩ := getLast_of_prev hp
    have hc := hr.chain
    have hnd := chain_nodup hc
    simp only [map_append, map_cons, map_nil] at hc hnd ⊢
    obtain ⟨_, hc, _⟩ := seg_append.1 hc
    refine seg_relink hc (fun x hx => ?_) (ht.link q rfl).2.2
    obtain ⟨c, hcm, rfl⟩ := mem_map.1 hx
    refine (ht.others hr hp hH (c := c) (by simp [hcm])).2.2 fun he => ?_
    rw [Option.some.injEq] at he
    simp only [append_assoc, nodup_append] at hnd
    exact hnd.2.2 c.1 hx q (by simp) he.symm

/-- the list behind the block taken stays -/
theorem Took.chain_post : Chain (next h'.mem) (next h.mem b) (post.map Prod.fst) := by
  have hc := hr.chain
  have hnd := chain_nodup hc
  simp only [map_append, map_cons] at hc hnd
  refine (chain_congr fun x hx => ?_).2 (chain_cons.1 (chain_drop hc)).2.2
  obtain ⟨c, hcm, rfl⟩ := mem_map.1 hx
  refine (ht.others hr hp hH (c := c) (by simp [hcm])).2.2 fun he => ?_
  obtain ⟨pre', s, rfl⟩ := getLast_of_prev (hp.trans he)
  exact (nodup_append.1 hnd).2.2 c.1 (by simp) c.1 (by simp [hx]) rfl

/-- the block `(b, sz)` becomes the block `got` in use and the free blocks `rest` -/
theorem Took.rep {got : ℕ × ℕ} {rest : List (ℕ × ℕ)}
    (hT : Tiling heapVaBase h.heapBrk (got :: rest ++ (used ++ (pre ++ post))))
    (hgot : hdrSize < got.2 ∧ size h'.mem got.1 = got.2 ∧ magic h'.mem got.1 = bmagicUsed)
    (hrest : ∀ c ∈ rest, hdrSize < c.2 ∧ size h'.mem c.1 = c.2 ∧ magic h'.mem c.1 = bmagicFree)
    (hv : Chain (next h'.mem) v ((rest ++ post).map Prod.fst)) : Rep h' (got :: used) (pre ++ (rest ++ post)) where
  tiling := by
    rw [ht.brk]
    exact hT.perm (by grind)
  hdr c hc := by
    rcases (by grind : c = got ∨ c ∈ rest ∨ c ∈ used ++ (pre ++ post)) with rfl | hc | hc
    · exact ⟨hgot.1, hgot.2.1⟩
    · exact ⟨(hrest c hc).1, (hrest c hc).2.1⟩
    · rw [(ht.others hr hp hH hc).1]
      exact hr.hdr c (hr.apart_front hc).2.2
  usedMagic c hc := by
    rcases mem_cons.1 hc with rfl | hc
    · exact hgot.2.2
    · rw [(ht.others hr hp hH (c := c) (by simp [hc])).2.1]
      exact hr.usedMagic c hc
  freeMagic c hc := by
    rcases (by grind : c ∈ rest ∨ c ∈ pre ++ post) with hc | hc
    · exact (hrest c hc).2.2
    · rw [(ht.others hr hp hH (c := c) (by grind)).2.1]
      exact hr.freeMagic c (by grind)
  chain := by
    rw [map_append]
    exact ht.chain hr hp hH hv
  base := ht.brk ▸ hr.base
  lim := ht.brk ▸ hr.lim

end Took

/-- the size of the block handed out -/
def takenSize (need sz : ℕ) : ℕ := if hdrSize + 16 ≤ sz - need then need else sz

theorem le_takenSize {need sz : ℕ} (h : need ≤ sz) : need ≤ takenSize need sz := by
  unfold takenSize
  split_ifs
  exacts [le_rfl, h]

/-- what stays on the free list of the block -/
def takenRest (need b sz : ℕ) : List (ℕ × ℕ) := if hdrSize + 16 ≤ sz - need then [(b + need, sz - need)] else []

/-- **Taking a block.** -/
theorem take_rep (hr : Rep h used (pre ++ (b, sz) :: post)) (hp : (pre.map Prod.fst).getLast? = prev)
    (hn : hdrSize < need) (hf : need ≤ sz) :
    Rep (h.take need prev b) ((b, takenSize need sz) :: used) (pre ++ (takenRest need b sz ++ post)) ∧
      (h.take need prev b).heapBrk = h.heapBrk := by
  have hbm : (b, sz) ∈ used ++ (pre ++ (b, sz) :: post) := by simp
  have hsz : size h.mem b = sz := (hr.hdr _ hbm).2
  have hbd := hr.bounds hbm
  have hq : ∀ q, prev = some q → b + sz ≤ q ∨ q + hdrSize ≤ b := by
    rintro q rfl
    obtain ⟨pre', s, rfl⟩ := getLast_of_prev hp
    have := hr.apart_front (c := (q, s)) (by simp)
    unfold Apart at this
    simp only at this
    omega
  unfold takenSize takenRest
  by_cases hs : hdrSize + 16 ≤ sz - need
  · rw [if_pos hs, if_pos hs]
    obtain ⟨ht, ⟨b1, b2⟩, s1, s2, s3⟩ := take_split h need prev b (by rwa [hsz])
      hn (by rw [hsz]; exact hbd.2) fun q hq' => by
        have := hq q hq'
        unfold HdrApart
        omega
    rw [hsz] at s1
    have hH : ∀ c : ℕ × ℕ, Apart (b, sz) c → hdrSize < c.2 → ∀ x ∈ [b + need, b], HdrApart x c.1 := by
      intro c hc hc2 x hx
      unfold Apart HdrApart at *
      simp only [mem_cons, not_mem_nil, or_false] at hx hc
      omega
    refine ⟨ht.rep hr hp hH ?_ ⟨hn, b1, b2⟩ ?_ ⟨rfl, ?_, ?_⟩, ht.brk⟩
    · have hT := hr.tiling_front
      rw [show sz = need + (sz - need) by omega] at hT
      exact hT.split (by omega) (by omega)
    · simp only [mem_singleton, forall_eq]
      exact ⟨by omega, s1, s2⟩
    · unfold heapVaBase at hbd
      simp only at hbd ⊢
      omega
    · rw [s3]
      exact ht.chain_post hr hp hH
  · rw [if_neg hs, if_neg hs]
    obtain ⟨ht, b1, b2⟩ := take_whole h need prev b (by rwa [hsz]) fun q hq' => by
        have := hq q hq'
        unfold HdrApart
        omega
    have hH : ∀ c : ℕ × ℕ, Apart (b, sz) c → hdrSize < c.2 → ∀ x ∈ [b], HdrApart x c.1 := by
      intro c hc hc2 x hx
      unfold Apart HdrApart at *
      simp only [mem_cons, not_mem_nil, or_false] at hx hc
      omega
    exact ⟨ht.rep hr hp hH hr.tiling_front ⟨by simp only; omega, b1.trans hsz, b2⟩ (by simp) (ht.chain_post hr hp hH),
      ht.brk⟩

end Take

/-! ## `kmalloc` -/

variable {h : Heap} {used free : List (ℕ × ℕ)}

/-- a free block written in full at `b` -/
theorem freeHeader (h : Heap) (b sz nx : ℕ) (hs : sz < 2 ^ 32) (hn : nx < 2 ^ 64) :
    let h' := ((h.setSize b sz).setMagic b bmagicFree).setNext b nx
    Only [b] h.mem h'.mem ∧ size h'.mem b = sz ∧ magic h'.mem b = bmagicFree ∧ next h'.mem b = nx := by
  refine ⟨((only_setSize h b sz).trans <| (only_setMagic _ b _).trans (only_setNext _ b nx)).mono (by simp), ?_, ?_, ?_⟩
  · rw [size_setNext, size_setMagic, size_setSize h b sz hs]
  · rw [magic_setNext, magic_setMagic _ _ _ (by decide)]
  · rw [next_setNext _ _ _ hn]

theorem heapInit_rep (mem : ℕ → BitVec 8) :
    Rep (heapInit mem) [] [(heapVaBase, superPages * pageSize)] := by
  obtain ⟨_, h1, h2, h3⟩ := freeHeader ⟨mem, heapVaBase, heapVaBase + superPages * pageSize⟩ heapVaBase
    (superPages * pageSize) 0 (by decide) (by decide)
  have hs : hdrSize < superPages * pageSize := by decide
  refine ⟨Tiling.single (by decide), fun b hb => ?_, by simp, fun b hb => ?_, ⟨rfl, by decide, h3⟩,
    Nat.le_add_right _ _, (by decide : heapVaBase + superPages * pageSize < 2 ^ 64)⟩
  · obtain rfl := mem_singleton.1 hb
    exact ⟨hs, h1⟩
  · obtain rfl := mem_singleton.1 hb
    exact h2

/-- **Growing.** The new superblock is one free block, in front. -/
theorem addSuper_rep (hr : Rep h used free) (hlim : h.heapBrk + superPages * pageSize < 2 ^ 64) :
    Rep h.addSuper used ((h.heapBrk, superPages * pageSize) :: free) ∧
      h.addSuper.heapBrk = h.heapBrk + superPages * pageSize := by
  have hfl : h.freelist < 2 ^ 64 := by
    cases free with
    | nil => rw [chain_nil.1 hr.chain]; norm_num
    | cons b l =>
      have := hr.bounds (b := b) (by simp)
      rw [(chain_cons.1 hr.chain).1]
      omega
  obtain ⟨honly, h1, h2, h3⟩ := freeHeader (grow h superPages) h.heapBrk (superPages * pageSize)
    h.freelist (by decide) hfl
  have hadd : h.addSuper = { ((((grow h superPages).setSize h.heapBrk (superPages * pageSize)).setMagic h.heapBrk
      bmagicFree).setNext h.heapBrk h.freelist) with freelist := h.heapBrk } := by
    simp [addSuper, grow, setNext, setSize, setMagic]
  rw [hadd]
  have hkeep : ∀ b ∈ used ++ free, _ := fun b hb => honly.hdr (c := b.1) fun x hx => by
    have h1 := hr.tiling.bounds hb
    have h2 := (hr.hdr b hb).1
    rw [mem_singleton] at hx
    unfold HdrApart
    omega
  refine ⟨⟨?_, fun b hb => ?_, fun b hb => ?_, fun b hb => ?_, ⟨rfl, ?_, ?_⟩, ?_, hlim⟩, rfl⟩
  · exact (hr.tiling.extend hr.base (by decide)).perm (by grind)
  · rcases (by grind : b = (h.heapBrk, superPages * pageSize) ∨ b ∈ used ++ free) with rfl | hb
    · exact ⟨(by decide : hdrSize < superPages * pageSize), h1⟩
    · exact ⟨(hr.hdr b hb).1, (hkeep b hb).1.trans (hr.hdr b hb).2⟩
  · exact (hkeep b (by simp [hb])).2.1.trans (hr.usedMagic b hb)
  · rcases mem_cons.1 hb with rfl | hb
    · exact h2
    · exact (hkeep b (by simp [hb])).2.1.trans (hr.freeMagic b hb)
  · have := hr.base
    unfold heapVaBase at this
    simp only
    omega
  · refine (chain_congr fun x hx => ?_).2 (h3 ▸ hr.chain)
    obtain ⟨c, hc, rfl⟩ := mem_map.1 hx
    exact (hkeep c (by simp [hc])).2.2
  · exact hr.base.trans (Nat.le_add_right _ _)

/-- the free list search: the first block of at least `need` bytes, with the link that leads to it -/
theorem kmallocScan_spec (need : ℕ) {b fuel : ℕ} (pre : List (ℕ × ℕ)) {post : List (ℕ × ℕ)}
    (hr : Rep h used (pre ++ post)) (hb : Chain (next h.mem) b (post.map Prod.fst)) (hf : post.length < fuel) :
    (kmallocScan h need fuel (pre.map Prod.fst).getLast? b = .ok none ∧ ∀ c ∈ post, c.2 < need) ∨
    ∃ pre' c post', post = pre' ++ c :: post' ∧ (∀ d ∈ pre', d.2 < need) ∧ need ≤ c.2 ∧
      kmallocScan h need fuel (pre.map Prod.fst).getLast? b =
        .ok (some (c.1 + hdrSize, h.take need ((pre ++ pre').map Prod.fst).getLast? c.1)) := by
  induction post generalizing pre b fuel with
  | nil =>
    obtain ⟨fuel, rfl⟩ : ∃ k, fuel = k + 1 := ⟨fuel - 1, by simp at hf; omega⟩
    exact Or.inl ⟨by rw [kmallocScan, if_pos (chain_nil.1 hb)], by simp⟩
  | cons c post ih =>
    obtain ⟨fuel, rfl⟩ : ∃ k, fuel = k + 1 := ⟨fuel - 1, by simp at hf; omega⟩
    obtain ⟨rfl, hc0, hb⟩ := chain_cons.1 hb
    have hm : magic h.mem c.1 = bmagicFree := hr.freeMagic c (by simp)
    have hsz : size h.mem c.1 = c.2 := (hr.hdr c (by simp)).2
    rw [kmallocScan, if_neg hc0, if_neg (not_not.2 hm), hsz]
    by_cases hfit : need ≤ c.2
    · exact Or.inr ⟨[], c, post, rfl, by simp, hfit, by rw [if_pos hfit, append_nil]⟩
    · rw [if_neg hfit]
      have hlast : ((pre ++ [c]).map Prod.fst).getLast? = some c.1 := by simp
      have hr' : Rep h used (pre ++ [c] ++ post) := by simpa using hr
      rcases ih (pre ++ [c]) hr' hb (by simpa using hf) with ⟨h1, h2⟩ | ⟨pre', d, post', rfl, h2, h3, h4⟩
      · exact Or.inl ⟨hlast ▸ h1, forall_mem_cons.2 ⟨Nat.lt_of_not_le hfit, h2⟩⟩
      · refine Or.inr ⟨c :: pre', d, post', rfl, forall_mem_cons.2 ⟨Nat.lt_of_not_le hfit, h2⟩, h3, ?_⟩
        rw [← hlast, h4, append_assoc, singleton_append]

/-- one round of `kmalloc`: the first block that is large enough, or none is and the heap grows -/
theorem kmallocRounds_succ {n : ℕ} (rounds : ℕ) (hr : Rep h used free) (h0 : n ≠ 0) (hn : n + hdrSize ≤ heapMax) :
    (∃ pre b sz post h', free = pre ++ (b, sz) :: post ∧ (∀ d ∈ pre, d.2 < n + hdrSize) ∧ n + hdrSize ≤ sz ∧
      kmallocRounds (rounds + 1) h n = .ok (b + hdrSize, h') ∧ h'.heapBrk = h.heapBrk ∧
      Rep h' ((b, takenSize (n + hdrSize) sz) :: used) (pre ++ (takenRest (n + hdrSize) b sz ++ post))) ∨
    (kmallocRounds (rounds + 1) h n = kmallocRounds rounds h.addSuper n ∧ ∀ c ∈ free, c.2 < n + hdrSize) := by
  have hmax : heapMax = 32768 := rfl
  have hlen : free.length < h.heapBrk - heapVaBase + 1 := by
    have := hr.tiling.length_le
    rw [length_append] at this
    omega
  have hc : ¬ (n = 0 ∨ heapMax < (n + hdrSize) % 2 ^ 64) := by
    rw [Nat.mod_eq_of_lt (by omega)]
    omega
  have hneed : (n % 2 ^ 32 + hdrSize) % 2 ^ 32 = n + hdrSize := by
    rw [Nat.mod_eq_of_lt (a := n) (by omega), Nat.mod_eq_of_lt (by omega)]
  rw [kmallocRounds, if_neg hc, hneed]
  simp only
  rcases kmallocScan_spec (n + hdrSize) [] hr hr.chain hlen with
    ⟨h1, h2⟩ | ⟨pre, ⟨b, sz⟩, post, rfl, hpre, hfit, h1⟩
  · exact Or.inr ⟨by simp only [map_nil, getLast?_nil] at h1; rw [h1]; rfl, h2⟩
  · simp only [map_nil, getLast?_nil, nil_append] at h1
    obtain ⟨hrep, hbrk⟩ := take_rep hr rfl (Nat.lt_add_of_pos_left (Nat.pos_of_ne_zero h0)) hfit
    exact Or.inl ⟨pre, b, sz, post, _, rfl, hpre, hfit, by rw [h1]; rfl, hbrk, hrep⟩

/-- **`kmalloc`.** It refuses 0 and more than `HEAP_MAX`, and otherwise hands out a block after at most one grow. -/
theorem kmalloc_rep {n : ℕ} (hr : Rep h used free) (hn : n + hdrSize < 2 ^ 64)
    (hlim : h.heapBrk + superPages * pageSize < 2 ^ 64) :
    ((n = 0 ∨ heapMax < n + hdrSize) ∧ kmalloc h n = .ok (0, h)) ∨
    (n ≠ 0 ∧ n + hdrSize ≤ heapMax ∧ ∃ b got h' free', kmalloc h n = .ok (b + hdrSize, h') ∧ n + hdrSize ≤ got ∧
      Rep h' ((b, got) :: used) free' ∧
      (h'.heapBrk = h.heapBrk ∨ h'.heapBrk = h.heapBrk + superPages * pageSize)) := by
  by_cases hc : n = 0 ∨ heapMax < n + hdrSize
  · refine Or.inl ⟨hc, ?_⟩
    rw [kmalloc, kmallocRounds, if_pos (by rwa [Nat.mod_eq_of_lt hn])]
  obtain ⟨h0, hmax⟩ : n ≠ 0 ∧ n + hdrSize ≤ heapMax := by omega
  refine Or.inr ⟨h0, hmax, ?_⟩
  rcases kmallocRounds_succ 1 hr h0 hmax with ⟨_, b, sz, _, h', _, _, hfit, h1, hbrk, h2⟩ | ⟨h1, _⟩
  · exact ⟨b, _, h', _, h1, le_takenSize hfit, h2, Or.inl hbrk⟩
  · obtain ⟨hr', hbrk⟩ := addSuper_rep hr hlim
    rcases kmallocRounds_succ 0 hr' h0 hmax with ⟨_, b, sz, _, h', _, _, hfit, h2, hbrk', h3⟩ | ⟨_, h2⟩
    · exact ⟨b, _, h', _, h1.trans h2, le_takenSize hfit, h3, Or.inr (hbrk'.trans hbrk)⟩
    · -- the new superblock fits
      have := h2 _ mem_cons_self
      have hs : heapMax < superPages * pageSize := by decide
      simp only at this
      omega

/-! ## `kfree` -/

/-- as `Rep`, while the free list is rebuilt: the blocks `loose` are free and not on the list -/
structure Mid (h : Heap) (used linked loose : List (ℕ × ℕ)) : Prop where
  tiling : Tiling heapVaBase h.heapBrk (used ++ (linked ++ loose))
  hdr : ∀ b ∈ used ++ (linked ++ loose), hdrSize < b.2 ∧ size h.mem b.1 = b.2
  usedMagic : ∀ b ∈ used, magic h.mem b.1 = bmagicUsed
  freeMagic : ∀ b ∈ linked ++ loose, magic h.mem b.1 = bmagicFree
  chain : Chain (next h.mem) h.freelist (linked.map Prod.fst)
  base : heapVaBase ≤ h.heapBrk
  lim : h.heapBrk < 2 ^ 64

theorem Mid.rep {linked : List (ℕ × ℕ)} (hm : Mid h used linked []) : Rep h used linked :=
  ⟨by simpa using hm.tiling, by simpa using hm.hdr, hm.usedMagic, by simpa using hm.freeMagic, hm.chain,
    hm.base, hm.lim⟩

/-- the blocks `t :: cs` with each one that starts where the one before it ends joined to it -/
def coal : ℕ × ℕ → List (ℕ × ℕ) → List (ℕ × ℕ)
  | t, [] => [t]
  | t, c :: cs => if t.1 + t.2 = c.1 then coal (t.1, t.2 + c.2) cs else t :: coal c cs

section Merge

variable {linked loose cs D : List (ℕ × ℕ)} {c t : ℕ × ℕ}

theorem Mid.hdrApart (hm : Mid h used linked loose) {b c : ℕ × ℕ} (hb : b ∈ used ++ (linked ++ loose))
    (hc : c ∈ used ++ (linked ++ loose)) (hne : b.1 ≠ c.1) : HdrApart b.1 c.1 :=
  hdrApart_of_apart (hm.tiling.apart_of_ne hb hc fun e => hne (congrArg Prod.fst e)) (hm.hdr b hb).1 (hm.hdr c hc).1

theorem Mid.lt (hm : Mid h used linked loose) {b : ℕ × ℕ} (hb : b ∈ used ++ (linked ++ loose)) :
    0 < b.1 ∧ b.1 + b.2 < 2 ^ 64 ∧ heapVaBase ≤ b.1 := by
  have h1 := hm.tiling.bounds hb
  have h2 := hm.lim
  have h3 : 0 < heapVaBase := by decide
  omega

/-- the first block starts the list -/
theorem mergeStep_first (hm : Mid h used [] (c :: cs)) :
    ∃ h', mergeStep (h, 0) c.1 = (h', c.1) ∧ Mid h' used [c] cs ∧ h'.heapBrk = h.heapBrk := by
  refine ⟨{ h.setNext c.1 0 with freelist := c.1 }, by simp [mergeStep], ?_, rfl⟩
  have hcm : c ∈ used ++ ([] ++ c :: cs) := by simp
  have hkeep : ∀ b ∈ used ++ ([] ++ c :: cs), size (h.setNext c.1 0).mem b.1 = size h.mem b.1 ∧
      magic (h.setNext c.1 0).mem b.1 = magic h.mem b.1 := fun b hb => by
    by_cases he : c.1 = b.1
    · rw [← he]
      exact ⟨size_setNext h c.1 0, magic_setNext h c.1 0⟩
    · have := (only_setNext h c.1 0).hdr (c := b.1) fun x hx => by
        rw [mem_singleton.1 hx]
        exact hm.hdrApart hcm hb he
      exact ⟨this.1, this.2.1⟩
  refine ⟨hm.tiling, fun b hb => ?_, fun b hb => ?_, fun b hb => ?_, ⟨rfl, ?_, ?_⟩, hm.base, hm.lim⟩
  · exact ⟨(hm.hdr b hb).1, (hkeep b hb).1.trans (hm.hdr b hb).2⟩
  · exact (hkeep b (by simp [hb])).2.trans (hm.usedMagic b hb)
  · exact (hkeep b (mem_append_right _ hb)).2.trans (hm.freeMagic b hb)
  · exact (hm.lt hcm).1.ne'
  · exact next_setNext h c.1 0 (by decide)

/-- a block that starts where the last one of the list ends is joined to it -/
theorem mergeStep_join (hm : Mid h used (D ++ [t]) (c :: cs)) (he : t.1 + t.2 = c.1) :
    ∃ h', mergeStep (h, t.1) c.1 = (h', t.1) ∧ Mid h' used (D ++ [(t.1, t.2 + c.2)]) cs ∧ h'.heapBrk = h.heapBrk := by
  have htm : t ∈ used ++ (D ++ [t] ++ c :: cs) := by simp
  have hcm : c ∈ used ++ (D ++ [t] ++ c :: cs) := by simp
  have hts := (hm.hdr t htm).2
  have hcs := (hm.hdr c hcm).2
  have htl := hm.lt htm
  have hcl := hm.lt hcm
  have hsum : t.2 + c.2 < 2 ^ 32 := by
    unfold heapVaBase at htl
    omega
  have hstep : mergeStep (h, t.1) c.1 = (h.setSize t.1 (t.2 + c.2), t.1) := by
    simp only [mergeStep, hts, hcs]
    rw [if_pos ⟨htl.1.ne', he⟩, Nat.mod_eq_of_lt hsum]
  have hT : Tiling heapVaBase h.heapBrk ((t.1, t.2 + c.2) :: (used ++ (D ++ cs))) := by
    refine Tiling.join (hm.tiling.perm ?_)
    rw [he]
    grind
  have hT' : Tiling heapVaBase h.heapBrk (t :: c :: (used ++ (D ++ cs))) := hm.tiling.perm (by grind)
  have hkeep : ∀ b ∈ used ++ (D ++ cs), size (h.setSize t.1 (t.2 + c.2)).mem b.1 = size h.mem b.1 ∧
      magic (h.setSize t.1 (t.2 + c.2)).mem b.1 = magic h.mem b.1 ∧
      next (h.setSize t.1 (t.2 + c.2)).mem b.1 = next h.mem b.1 := fun b hb =>
    (only_setSize h t.1 _).hdr fun x hx => by
      rw [mem_singleton.1 hx]
      exact hdrApart_of_apart ((pairwise_cons.1 hT'.apart).1 b (mem_cons_of_mem _ hb)) (hm.hdr t htm).1
        (hm.hdr b (by grind)).1
  refine ⟨_, hstep, ⟨hT.perm (by grind), fun b hb => ?_, fun b hb => ?_, fun b hb => ?_, ?_, hm.base, hm.lim⟩, rfl⟩
  · rcases (by grind : b = (t.1, t.2 + c.2) ∨ b ∈ used ++ (D ++ cs)) with rfl | hb
    · exact ⟨(hm.hdr t htm).1.trans_le (Nat.le_add_right _ _), size_setSize h t.1 _ hsum⟩
    · have := hm.hdr b (by grind)
      exact ⟨this.1, (hkeep b hb).1.trans this.2⟩
  · exact (hkeep b (by simp [hb])).2.1.trans (hm.usedMagic b hb)
  · rcases (by grind : b = (t.1, t.2 + c.2) ∨ b ∈ D ++ cs) with rfl | hb
    · exact (magic_setSize h t.1 _).trans (hm.freeMagic t (by simp))
    · exact (hkeep b (by grind)).2.1.trans (hm.freeMagic b (by grind))
  · have hch := hm.chain
    simp only [map_append, map_cons, map_nil] at hch ⊢
    refine (chain_congr fun x hx => ?_).2 hch
    rcases mem_append.1 hx with hx | hx
    · obtain ⟨d, hd, rfl⟩ := mem_map.1 hx
      exact (hkeep d (by simp [hd])).2.2
    · rw [mem_singleton.1 hx]
      exact next_setSize h t.1 _

/-- any other block is linked behind the last one -/
theorem mergeStep_link (hm : Mid h used (D ++ [t]) (c :: cs)) (he : t.1 + t.2 ≠ c.1) :
    ∃ h', mergeStep (h, t.1) c.1 = (h', c.1) ∧ Mid h' used (D ++ [t] ++ [c]) cs ∧ h'.heapBrk = h.heapBrk := by
  have htm : t ∈ used ++ (D ++ [t] ++ c :: cs) := by simp
  have hcm : c ∈ used ++ (D ++ [t] ++ c :: cs) := by simp
  have htl := hm.lt htm
  have hcl := hm.lt hcm
  have hlist : used ++ (D ++ [t] ++ [c] ++ cs) = used ++ (D ++ [t] ++ c :: cs) := by simp
  have hct : c.1 ∉ (D ++ [t]).map Prod.fst := fun hx => by
    have hnd := hm.tiling.nodup
    rw [map_append, map_append, nodup_append, nodup_append] at hnd
    exact hnd.2.1.2.2 c.1 hx c.1 (by simp) rfl
  have htc : t.1 ≠ c.1 := fun e => hct (by simp [← e])
  have hap := hm.hdrApart htm hcm htc
  have hstep : mergeStep (h, t.1) c.1 = ((h.setNext c.1 0).setNext t.1 c.1, c.1) := by
    simp only [mergeStep, (hm.hdr t htm).2]
    rw [if_neg (fun hh => he hh.2), if_neg htl.1.ne']
  -- one header at a time: `c`'s link, then `t`'s
  have h1 : ∀ b ∈ used ++ (D ++ [t] ++ c :: cs), size (h.setNext c.1 0).mem b.1 = size h.mem b.1 ∧
      magic (h.setNext c.1 0).mem b.1 = magic h.mem b.1 ∧
      next (h.setNext c.1 0).mem b.1 = update (next h.mem) c.1 0 b.1 := fun b hb => by
    by_cases e : c.1 = b.1
    · rw [← e, update_self]
      exact ⟨size_setNext h c.1 0, magic_setNext h c.1 0, next_setNext h c.1 0 (by decide)⟩
    · rw [update_of_ne (Ne.symm e)]
      exact (only_setNext h c.1 0).hdr fun x hx => mem_singleton.1 hx ▸ hm.hdrApart hcm hb e
  have h2 : ∀ b ∈ used ++ (D ++ [t] ++ c :: cs), size ((h.setNext c.1 0).setNext t.1 c.1).mem b.1 = size h.mem b.1 ∧
      magic ((h.setNext c.1 0).setNext t.1 c.1).mem b.1 = magic h.mem b.1 ∧
      next ((h.setNext c.1 0).setNext t.1 c.1).mem b.1 =
        update (update (next h.mem) c.1 0) t.1 c.1 b.1 := fun b hb => by
    by_cases e : t.1 = b.1
    · rw [← e, update_self]
      exact ⟨(size_setNext _ t.1 _).trans (h1 t htm).1, (magic_setNext _ t.1 _).trans (h1 t htm).2.1,
        next_setNext _ t.1 _ (by omega)⟩
    · rw [update_of_ne (Ne.symm e), ← (h1 b hb).1, ← (h1 b hb).2.1, ← (h1 b hb).2.2]
      exact (only_setNext _ t.1 c.1).hdr fun x hx => mem_singleton.1 hx ▸ hm.hdrApart htm hb e
  refine ⟨_, hstep, ⟨hlist ▸ hm.tiling, fun b hb => ?_, fun b hb => ?_, fun b hb => ?_, ?_, hm.base, hm.lim⟩, rfl⟩
  · rw [hlist] at hb
    exact ⟨(hm.hdr b hb).1, (h2 b hb).1.trans (hm.hdr b hb).2⟩
  · exact (h2 b (by simp [hb])).2.1.trans (hm.usedMagic b hb)
  · exact (h2 b (by grind)).2.1.trans (hm.freeMagic b (by grind))
  · have hch := hm.chain
    have := chain_snoc (by simpa using hch) (by simpa using hct) hcl.1.ne'
    rw [show D.map Prod.fst ++ [t.1] ++ [c.1] = (D ++ [t] ++ [c]).map Prod.fst by simp] at this
    refine (chain_congr fun x hx => ?_).2 this
    obtain ⟨b, hb, rfl⟩ := mem_map.1 hx
    exact (h2 b (by grind)).2.2

/-- **Rebuilding the list.** -/
theorem merge_rep (hm : Mid h used (D ++ [t]) cs) :
    Rep ((cs.map Prod.fst).foldl mergeStep (h, t.1)).1 used (D ++ coal t cs) ∧
      ((cs.map Prod.fst).foldl mergeStep (h, t.1)).1.heapBrk = h.heapBrk := by
  induction cs generalizing h D t with
  | nil => exact ⟨hm.rep, rfl⟩
  | cons c cs ih =>
    rw [map_cons, foldl_cons, coal]
    by_cases he : t.1 + t.2 = c.1
    · obtain ⟨h', hs, hm', hb⟩ := mergeStep_join hm he
      rw [hs, if_pos he, ← hb]
      exact ih hm'
    · obtain ⟨h', hs, hm', hb⟩ := mergeStep_link hm he
      rw [hs, if_neg he, ← hb, ← singleton_append, ← append_assoc]
      exact ih hm'

end Merge

theorem collect_eq {m : ℕ → BitVec 8} (k : ℕ) {a : ℕ} {l : List ℕ} (hc : Chain (next m) a l) :
    collect m k a = l.take k := by
  induction k generalizing a l with
  | zero => rfl
  | succ k ih =>
    cases l with
    | nil => rw [collect, if_pos (chain_nil.1 hc), take_nil]
    | cons b l =>
      obtain ⟨rfl, hb, hc⟩ := chain_cons.1 hc
      rw [collect, if_neg hb, ih hc, take_succ_cons]

theorem sortArr_perm (arr : List ℕ) : (sortArr arr).Perm arr := by
  have key : ∀ acc : List ℕ, (arr.foldl (fun acc key => acc.orderedInsert (· ≥ ·) key) acc).Perm (arr ++ acc) := by
    induction arr with
    | nil => exact fun acc => List.Perm.refl _
    | cons a arr ih =>
      intro acc
      rw [foldl_cons]
      exact (ih _).trans (((perm_orderedInsert (· ≥ ·) a acc).append_left arr).trans perm_middle)
  unfold sortArr
  exact (reverse_perm _).trans (by simpa using key [])

/-- the blocks whose starts are a given rearrangement of the starts of `l` -/
theorem exists_perm_of_starts {m : ℕ → BitVec 8} {l : List (ℕ × ℕ)} (hl : ∀ b ∈ l, size m b.1 = b.2) {s : List ℕ}
    (hs : s.Perm (l.map Prod.fst)) : ∃ l' : List (ℕ × ℕ), l'.Perm l ∧ l'.map Prod.fst = s := by
  refine ⟨s.map fun a => (a, size m a), (hs.map _).trans ?_, by simp [Function.comp_def]⟩
  have hid : ∀ b ∈ l, ((fun a => (a, size m a)) ∘ Prod.fst) b = id b := fun b hb => Prod.ext rfl (hl b hb)
  rw [map_map, map_congr_left hid, map_id]

/-- marking a block free leaves the sizes, the links and the other marks -/
theorem Rep.setMagic_keeps {b s : ℕ} (hr : Rep h ((b, s) :: used) free) {c : ℕ × ℕ} (hc : c ∈ (b, s) :: used ++ free) :
    size (h.setMagic b bmagicFree).mem c.1 = size h.mem c.1 ∧ next (h.setMagic b bmagicFree).mem c.1 = next h.mem c.1 ∧
      (c ≠ (b, s) → magic (h.setMagic b bmagicFree).mem c.1 = magic h.mem c.1) := by
  by_cases e : c = (b, s)
  · subst e
    exact ⟨size_setMagic h b _, next_setMagic h b _, fun hne => absurd rfl hne⟩
  · have := (only_setMagic h b bmagicFree).hdr (c := c.1) fun x hx => by
      rw [mem_singleton.1 hx]
      exact hr.hdrApart (by simp) hc (Ne.symm e)
    exact ⟨this.1, this.2.2, fun _ => this.2.1⟩

/-- the pointers that `kfree` collects -/
theorem Rep.collect_setMagic {b s : ℕ} (hr : Rep h ((b, s) :: used) free) (k : ℕ) :
    collect (h.setMagic b bmagicFree).mem k h.freelist = (free.map Prod.fst).take k := by
  refine collect_eq k ((chain_congr fun x hx => ?_).2 hr.chain)
  obtain ⟨c, hc, rfl⟩ := mem_map.1 hx
  exact (hr.setMagic_keeps (by simp [hc])).2.1

/-- **`kfree`.** The block joins the free ones, which are put in order of address and merged. -/
theorem kfree_rep {b s : ℕ} (hr : Rep h ((b, s) :: used) free) (hlen : (collect h.mem 256 h.freelist).length ≤ 255) :
    ∃ h' t cs, kfree h (b + hdrSize) = .ok h' ∧ Rep h' used (coal t cs) ∧ (t :: cs).Perm (free ++ [(b, s)]) ∧
      (t :: cs).map Prod.fst = sortArr (free.map Prod.fst ++ [b]) ∧ h'.heapBrk = h.heapBrk := by
  have hbm : (b, s) ∈ (b, s) :: used ++ free := by simp
  have hfront : ∀ c ∈ used ++ free, c ≠ (b, s) := fun c hc e => by
    have := (pairwise_cons.1 hr.tiling.apart).1 c hc
    have h1 := (hr.hdr _ hbm).1
    unfold Apart at this
    subst e
    simp only at *
    omega
  have hl : free.length ≤ 255 := by
    rw [collect_eq 256 hr.chain, length_take, length_map] at hlen
    omega
  have hcol : collect (h.setMagic b bmagicFree).mem 256 h.freelist = free.map Prod.fst := by
    rw [hr.collect_setMagic 256, take_of_length_le (by rw [length_map]; omega)]
  obtain ⟨l, hperm, hmap⟩ := exists_perm_of_starts (m := h.mem) (l := free ++ [(b, s)])
    (fun c hc => (hr.hdr c (by grind)).2) (s := sortArr (free.map Prod.fst ++ [b]))
    (by simpa using sortArr_perm (free.map Prod.fst ++ [b]))
  obtain ⟨t, cs, rfl⟩ : ∃ t cs, l = t :: cs := by
    cases l with
    | nil => simpa using hperm.length_eq
    | cons t cs => exact ⟨t, cs, rfl⟩
  have hmid : Mid { h.setMagic b bmagicFree with freelist := 0 } used [] (t :: cs) := by
    have hmem : ∀ c, c ∈ used ++ ([] ++ t :: cs) ↔ c ∈ (b, s) :: used ++ free := fun c => by
      have := hperm.mem_iff (a := c)
      grind
    refine ⟨hr.tiling.perm ?_, fun c hc => ?_, fun c hc => ?_, fun c hc => ?_, rfl, hr.base, hr.lim⟩
    · exact List.Perm.trans (by grind) (hperm.symm.append_left used)
    · rw [hmem] at hc
      exact ⟨(hr.hdr c hc).1, (hr.setMagic_keeps hc).1.trans (hr.hdr c hc).2⟩
    · exact ((hr.setMagic_keeps (by simp [hc])).2.2 (hfront c (by simp [hc]))).trans (hr.usedMagic c (by simp [hc]))
    · rcases mem_append.1 (hperm.mem_iff.1 hc) with hc | hc
      · exact ((hr.setMagic_keeps (by simp [hc])).2.2 (hfront c (by simp [hc]))).trans (hr.freeMagic c hc)
      · rw [mem_singleton.1 hc]
        exact magic_setMagic h b _ (by decide)
  obtain ⟨h1, hs1, hm1, hb1⟩ := mergeStep_first hmid
  obtain ⟨hrep, hb2⟩ := merge_rep (D := []) hm1
  refine ⟨_, t, cs, ?_, hrep, hperm, hmap, hb2.trans hb1⟩
  have hm : magic h.mem b = bmagicUsed := hr.usedMagic (b, s) (by simp)
  have hp0 : b + hdrSize ≠ 0 := by
    unfold hdrSize
    omega
  unfold kfree
  rw [if_neg hp0, Nat.add_sub_cancel]
  simp only
  rw [if_neg (not_not.2 hm), show (h.setMagic b bmagicFree).freelist = h.freelist from rfl, hcol,
    if_neg (by rw [length_map]; omega), ← hmap, map_cons, foldl_cons, hs1]

end Uix.Heap
