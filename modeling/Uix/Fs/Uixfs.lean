/-
UIXFS, the read-only file system (`src/personality/fs/uixfs.c`), and the string functions it uses (`src/core/lib.c`).

The disk is a parameter: the sector that `virtio_blk_read` delivers for each LBA, or a failure. A file is read into
pages of the PMM that are reached through the HHDM, so `file_buf` is the physical address of the first one. Sizes, LBAs
and `nfiles` are `u32`; of their sums only `lba + 1` can leave that range.

- `byteAt_storeBytes`: the memory after a copy.
- `readChunks_spec`: the loop of `uixfs_read` copies the sectors, or reports one that cannot be read.
-/
import Uix.Memory.Mmu

namespace Uix

open Machine Bytes List Function
open Pmm (pageIdx pageAddr)

/-! ## Strings and copies -/

/-- `memcmp` of the memory at `a` with given bytes -/
def memcmp (m : ℕ → BitVec 8) (a : ℕ) : List (BitVec 8) → ℤ
  | [] => 0
  | c :: b => if m a ≠ c then (m a).toNat - c.toNat else memcmp m (a + 1) b

/-- `strcmp` of the string at `a` with the string whose bytes before the NUL are given -/
def strcmp (m : ℕ → BitVec 8) (a : ℕ) : List (BitVec 8) → ℤ
  | [] => (m a).toNat
  | c :: b => if m a ≠ 0 ∧ m a = c then strcmp m (a + 1) b else (m a).toNat - c.toNat

/-- `memcpy(dst, src, n)` to an address of the HHDM -/
def Kern.storeBytes (k : Kern) (a : ℕ) (src : ℕ → BitVec 8) (n : ℕ) : Kern :=
  (List.range n).foldl (fun k i => k.storeByte (a + i) (src i)) k

def Kern.pmmAllocPages (k : Kern) (n : ℕ) : Except Stop (PAddr × Kern) := do
  let (pa, p) ← k.pmm.pmmAllocPages n
  pure (pa, k.setPmm p)

/-! ## The state -/

/-- `virtio_blk_read`: the bytes of a sector, or a failure -/
abbrev Disk := ℕ → Option (ℕ → BitVec 8)

/-- the static variables of `uixfs.c` -/
structure Uixfs where
  /-- the memory from `entries` on: 32 entries of 32 bytes (`name[24]`, `size`, `start_lba`), then whatever follows
  them -/
  entries : ℕ → BitVec 8
  nfiles : ℕ
  mounted : Bool
  sector : ℕ → BitVec 8
  /-- `NULL` before the first file is read -/
  fileBuf : Option PAddr
  fileBufPages : ℕ

namespace Uixfs

def nfilesMax : ℕ := 32

/-- `"UIXF"` -/
def magic : List (BitVec 8) := [0x55, 0x49, 0x58, 0x46]

/-- `entries[i].size` -/
def size (fs : Uixfs) (i : ℕ) : ℕ := load fs.entries (32 * i + 24) 4

/-- `entries[i].start_lba` -/
def startLba (fs : Uixfs) (i : ℕ) : ℕ := load fs.entries (32 * i + 28) 4

/-! ## The result buffer -/

/-- `file_buf_free` -/
def fileBufFree (fs : Uixfs) (k : Kern) : Except Stop (Uixfs × Kern) :=
  match fs.fileBuf with
  | none => pure (fs, k)
  | some pa => do
    let k ← (List.range fs.fileBufPages).foldlM (fun k i => k.pmmFree (pa + BitVec.ofNat 64 (i * pageSize))) k
    pure ({ fs with fileBuf := none, fileBufPages := 0 }, k)

/-- `file_buf_alloc`: the new buffer, or `none` for -1 -/
def fileBufAlloc (fs : Uixfs) (k : Kern) (size : ℕ) : Except Stop (Option PAddr × Uixfs × Kern) := do
  let (fs, k) ← fs.fileBufFree k
  let pages := (size + pageSize - 1) / pageSize
  let (pa, k) ← k.pmmAllocPages pages
  if pa = 0 then pure (none, { fs with fileBufPages := 0 }, k) else
  pure (some pa, { fs with fileBuf := some pa, fileBufPages := pages }, k)

/-! ## Mounting -/

/-- `memcpy(&entries[i], sector + off, sizeof(entries[i]))` -/
def copyEntry (fs : Uixfs) (i off : ℕ) : Uixfs :=
  { fs with entries := fun x => if 32 * i ≤ x ∧ x < 32 * i + 32 then fs.sector (off + (x - 32 * i)) else fs.entries x }

/-- the loop of `uixfs_mount` at entry `i`, with `n` entries left -/
def mountEntries (disk : Disk) : ℕ → ℕ → Uixfs → Bool × Uixfs
  | 0, _, fs => (true, fs)
  | n + 1, i, fs =>
    let lba := 1 + i * 32 / 512
    let off := i * 32 % 512
    if off = 0 then
      match disk lba with
      | none => (false, fs)
      | some s => mountEntries disk n (i + 1) (copyEntry { fs with sector := s } i off)
    else mountEntries disk n (i + 1) (copyEntry fs i off)

/-- `uixfs_mount` -/
def uixfsMount (disk : Disk) (fs : Uixfs) : ℤ × Uixfs :=
  match disk 0 with
  | none => (-1, fs)
  | some s =>
    let fs := { fs with sector := s }
    if memcmp fs.sector 0 magic ≠ 0 then (-1, fs) else
    let n := load fs.sector 4 4
    let fs := { fs with nfiles := if nfilesMax < n then nfilesMax else n }
    match mountEntries disk fs.nfiles 0 fs with
    | (false, fs) => (-1, fs)
    | (true, fs) => (0, { fs with mounted := true })

/-! ## Reading a file -/

/-- the loop of `uixfs_read` with a bound on its iterations: false for a sector that cannot be read -/
def readChunks (disk : Disk) (buf : PAddr) (size : ℕ) : ℕ → ℕ → ℕ → Uixfs → Kern → Except Stop (Bool × Uixfs × Kern)
  | 0, _, _, _, _ => .error .hang
  | n + 1, lba, done, fs, k =>
    if done < size then
      match disk lba with
      | none => pure (false, fs, k)
      | some s =>
        let chunk := if 512 < size - done then 512 else size - done
        readChunks disk buf size n ((lba + 1) % 2 ^ 32) (done + chunk) { fs with sector := s }
          (k.storeBytes (buf.toNat + done) s chunk)
    else pure (true, fs, k)

/-- `uixfs_read` from the entry found on: the value returned and, if that is a size, the buffer -/
def readEntry (disk : Disk) (i : ℕ) (fs : Uixfs) (k : Kern) : Except Stop (ℤ × Option PAddr × Uixfs × Kern) := do
  let size := fs.size i
  let (buf, fs, k) ← fs.fileBufAlloc k size
  match buf with
  | none => pure (-12, none, fs, k)
  | some buf => do
    let (done, fs, k) ← readChunks disk buf size (size + 1) (fs.startLba i) 0 fs k
    if done then pure (size, some buf, fs, k) else pure (-5, none, fs, k)

/-- the first entry with the given name -/
def lookup (fs : Uixfs) (name : List (BitVec 8)) : Option ℕ :=
  (List.range fs.nfiles).find? fun i => strcmp fs.entries (32 * i) name = 0

/-- `uixfs_read` -/
def uixfsRead (disk : Disk) (name : List (BitVec 8)) (fs : Uixfs) (k : Kern) :
    Except Stop (ℤ × Option PAddr × Uixfs × Kern) :=
  if !fs.mounted then pure (-1, none, fs, k) else
  match fs.lookup name with
  | none => pure (-2, none, fs, k)
  | some i => readEntry disk i fs k

end Uixfs

/-! ## Memory after a copy -/

section Copy

variable {k : Kern} {a n : ℕ} {src : ℕ → BitVec 8}

theorem byteAt_storeByte (k : Kern) (a : ℕ) (b : BitVec 8) (x : ℕ) :
    byteAt (k.storeByte a b).mem x = if x = a then b else byteAt k.mem x := by
  have hlt : ∀ y, y % pageSize < 8 * 512 := fun y => Nat.mod_lt y (by decide)
  by_cases hp : x / pageSize = a / pageSize
  · have hmem : (k.storeByte a b).mem (x / pageSize) = setByte (k.mem (a / pageSize)) (a % pageSize) b := by
      rw [hp]
      exact update_self ..
    rw [byteAt, hmem, getByte_setByte _ _ (hlt a) (hlt x)]
    by_cases hx : x = a
    · rw [if_pos hx, if_pos (by rw [hx])]
    · have hmod : x % pageSize ≠ a % pageSize := fun hc => hx (by
        rw [← Nat.div_add_mod x pageSize, hp, hc, Nat.div_add_mod])
      rw [if_neg hx, if_neg hmod, byteAt, hp]
  · rw [if_neg fun hc : x = a => hp (by rw [hc]), byteAt, byteAt]
    congr 1
    exact update_of_ne hp _ _

theorem storeBytes_succ (k : Kern) (a : ℕ) (src : ℕ → BitVec 8) (n : ℕ) :
    k.storeBytes a src (n + 1) = (k.storeBytes a src n).storeByte (a + n) (src n) := by
  rw [Kern.storeBytes, range_succ, foldl_append, foldl_cons, foldl_nil]
  rfl

/-- **The memory after a copy.** -/
theorem byteAt_storeBytes (k : Kern) (a : ℕ) (src : ℕ → BitVec 8) (n x : ℕ) :
    byteAt (k.storeBytes a src n).mem x = if a ≤ x ∧ x < a + n then src (x - a) else byteAt k.mem x := by
  induction n with
  | zero =>
    rw [if_neg (by omega)]
    rfl
  | succ n ih =>
    rw [storeBytes_succ, byteAt_storeByte, ih]
    by_cases hx : x = a + n
    · rw [if_pos hx, if_pos (by omega), hx, Nat.add_sub_cancel_left]
    · rw [if_neg hx]
      by_cases h : a ≤ x ∧ x < a + n
      · rw [if_pos h, if_pos (by omega)]
      · rw [if_neg h, if_neg (by omega)]

/-- a copy changes memory only -/
theorem storeBytes_rest (k : Kern) (a : ℕ) (src : ℕ → BitVec 8) (n : ℕ) :
    k.storeBytes a src n = { k with mem := (k.storeBytes a src n).mem } := by
  induction n with
  | zero => rfl
  | succ n ih =>
    rw [storeBytes_succ, ih]
    rfl

/-- only the pages of the destination change -/
theorem storeBytes_mem_of_ne (k : Kern) {a n f : ℕ} (src : ℕ → BitVec 8) (h : ∀ i < n, f ≠ (a + i) / pageSize) :
    (k.storeBytes a src n).mem f = k.mem f := by
  induction n with
  | zero => rfl
  | succ n ih =>
    rw [storeBytes_succ]
    exact (update_of_ne (h n (Nat.lt_succ_self n)) _ _).trans (ih fun i hi => h i (by omega))

end Copy

/-! ## The loop of `uixfs_read` -/

namespace Uixfs

section Chunks

variable {disk : Disk} {buf : PAddr} {size : ℕ}

/-- what the loop leaves alone -/
structure Filled (k k' : Kern) (buf : PAddr) (done size : ℕ) : Prop where
  rest : k' = { k with mem := k'.mem }
  bytes : ∀ x, x < buf.toNat + done ∨ buf.toNat + size ≤ x → byteAt k'.mem x = byteAt k.mem x
  pages : ∀ f, (∀ x, buf.toNat + done ≤ x → x < buf.toNat + size → f ≠ x / pageSize) → k'.mem f = k.mem f

theorem Filled.refl (k : Kern) (buf : PAddr) (done size : ℕ) : Filled k k buf done size :=
  ⟨rfl, fun _ _ => rfl, fun _ _ => rfl⟩

/-- one chunk, and then the rest -/
theorem Filled.chunk {k k' : Kern} {done n : ℕ} {s : ℕ → BitVec 8} (hn : done + n ≤ size)
    (h : Filled (k.storeBytes (buf.toNat + done) s n) k' buf (done + n) size) : Filled k k' buf done size := by
  refine ⟨?_, fun x hx => ?_, fun f hf => ?_⟩
  · rw [h.rest, storeBytes_rest]
  · rw [h.bytes x (by omega), byteAt_storeBytes, if_neg (by omega)]
  · rw [h.pages f fun x h1 h2 => hf x (by omega) h2]
    exact storeBytes_mem_of_ne k s fun i hi => hf _ (by omega) (by omega)

theorem chunk_le {done : ℕ} (h : done < size) :
    0 < (if 512 < size - done then 512 else size - done) ∧
      done + (if 512 < size - done then 512 else size - done) ≤ size := by
  split_ifs <;> omega

theorem chunk_next {done : ℕ} (h : done < size) (j : ℕ) :
    done + (if 512 < size - done then 512 else size - done) + 512 * j < size ↔ done + 512 * (j + 1) < size := by
  split_ifs <;> omega

/-- **The loop ends** and changes the sector and the buffer only. -/
theorem readChunks_spec {n lba done : ℕ} {fs : Uixfs} {k : Kern} (hn : size - done < n) :
    ∃ b s k', readChunks disk buf size n lba done fs k = .ok (b, { fs with sector := s }, k') ∧
      Filled k k' buf done size := by
  induction n generalizing lba done fs k with
  | zero => exact absurd hn (Nat.not_lt_zero _)
  | succ n ih =>
    rw [readChunks]
    by_cases hd : done < size
    · rw [if_pos hd]
      cases disk lba with
      | none => exact ⟨false, fs.sector, k, rfl, .refl k buf done size⟩
      | some s =>
        obtain ⟨hpos, hle⟩ := chunk_le hd
        obtain ⟨b, s', k', hrun, F⟩ := @ih ((lba + 1) % 2 ^ 32)
          (done + if 512 < size - done then 512 else size - done) { fs with sector := s }
          (k.storeBytes (buf.toNat + done) s (if 512 < size - done then 512 else size - done)) (by omega)
        exact ⟨b, s', k', hrun, F.chunk hle⟩
    · rw [if_neg hd]
      exact ⟨true, fs.sector, k, rfl, .refl k buf done size⟩

/-- the loop succeeds if every sector of the file can be read -/
theorem readChunks_result {n lba done : ℕ} {fs fs' : Uixfs} {k k' : Kern} {b : Bool} (hlba : lba < 2 ^ 32)
    (h : readChunks disk buf size n lba done fs k = .ok (b, fs', k')) :
    b = true ↔ ∀ j, done + 512 * j < size → disk ((lba + j) % 2 ^ 32) ≠ none := by
  induction n generalizing lba done fs k with
  | zero => cases h
  | succ n ih =>
    rw [readChunks] at h
    by_cases hd : done < size
    · rw [if_pos hd] at h
      cases hs : disk lba with
      | none =>
        rw [hs] at h
        cases h
        refine ⟨fun hc => absurd hc Bool.false_ne_true, fun hall => absurd ?_ (hall 0 (by omega))⟩
        rw [Nat.add_zero, Nat.mod_eq_of_lt hlba, hs]
      | some s =>
        rw [hs] at h
        rw [ih (Nat.mod_lt _ (by decide)) h]
        -- the sector just read, and those after it
        have hnext : ∀ j, ((lba + 1) % 2 ^ 32 + j) % 2 ^ 32 = (lba + (j + 1)) % 2 ^ 32 := fun j => by omega
        constructor
        · intro hall j hj
          cases j with
          | zero => rw [Nat.add_zero, Nat.mod_eq_of_lt hlba, hs]; exact Option.some_ne_none s
          | succ j =>
            rw [← hnext]
            exact hall j ((chunk_next hd j).2 hj)
        · intro hall j hj
          rw [hnext]
          exact hall (j + 1) ((chunk_next hd j).1 hj)
    · rw [if_neg hd] at h
      cases h
      exact ⟨fun _ j hj => absurd hj (by omega), fun _ => rfl⟩

/-- **The file in the buffer**, when its sectors can be read. -/
theorem readChunks_content {start n done : ℕ} {fs : Uixfs} {k : Kern} {file : ℕ → BitVec 8} (hn : size - done < n)
    (hlba : start + (size + 511) / 512 < 2 ^ 32) (hwhole : done % 512 = 0 ∨ done = size)
    (hdisk : ∀ j, 512 * j < size → ∃ s, disk (start + j) = some s ∧ ∀ y < 512, 512 * j + y < size →
    s y = file (512 * j + y)) (hdone : ∀ x < done, byteAt k.mem (buf.toNat + x) = file x) (hle : done ≤ size) :
    ∃ s k', readChunks disk buf size n (start + done / 512) done fs k = .ok (true, { fs with sector := s }, k') ∧
      ∀ x < size, byteAt k'.mem (buf.toNat + x) = file x := by
  induction n generalizing done fs k with
  | zero => exact absurd hn (Nat.not_lt_zero _)
  | succ n ih =>
    rw [readChunks]
    by_cases hd : done < size
    · rw [if_pos hd]
      have hmod : done % 512 = 0 := by omega
      obtain ⟨s, hs, hbytes⟩ := hdisk (done / 512) (by omega)
      rw [hs]
      simp only
      have hnext : ∀ c, c = 512 ∨ done + c = size → 0 < c → done + c ≤ size → c ≤ 512 → ∃ s' k',
          readChunks disk buf size n ((start + done / 512 + 1) % 2 ^ 32) (done + c) { fs with sector := s }
            (k.storeBytes (buf.toNat + done) s c) = .ok (true, { fs with sector := s' }, k') ∧
          ∀ x < size, byteAt k'.mem (buf.toNat + x) = file x := by
        intro c hc hpos hle' hc512
        have hwrite : ∀ x < done + c, byteAt (k.storeBytes (buf.toNat + done) s c).mem (buf.toNat + x) = file x := by
          intro x hx
          rw [byteAt_storeBytes]
          by_cases hxd : x < done
          · rw [if_neg (by omega), hdone x hxd]
          · rw [if_pos (by omega), hbytes _ (by omega) (by omega)]
            congr 1
            omega
        have hmod' : (start + done / 512 + 1) % 2 ^ 32 = start + done / 512 + 1 := Nat.mod_eq_of_lt (by omega)
        rw [hmod']
        rcases hc with rfl | hc
        · have := @ih (done + 512) { fs with sector := s } (k.storeBytes (buf.toNat + done) s 512)
            (by omega) (by omega) hwrite hle'
          rwa [show start + (done + 512) / 512 = start + done / 512 + 1 by omega] at this
        · -- the last chunk: the LBA does not matter any more
          cases n with
          | zero => omega
          | succ n =>
            rw [readChunks, if_neg (by omega)]
            exact ⟨s, _, rfl, fun x hx => hwrite x (by omega)⟩
      by_cases hlast : 512 < size - done
      · rw [if_pos hlast]
        exact hnext 512 (.inl rfl) (by omega) (by omega) le_rfl
      · rw [if_neg hlast]
        exact hnext _ (.inr (by omega)) (by omega) (by omega) (by omega)
    · rw [if_neg hd]
      exact ⟨fs.sector, k, rfl, fun x hx => hdone x (by omega)⟩

end Chunks

end Uixfs

end Uix
