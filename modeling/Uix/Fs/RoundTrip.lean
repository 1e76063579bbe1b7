/-
The image that `src/tools/mkuixfs.py` writes, and what UIXFS reads from it.

The image is a Python `bytearray`: `struct.pack_into` fails outside of it, a slice assignment replaces what the slice
covers. A file is given by the encoded name and the contents.

- `writeFiles_spec`: the entries and the contents are where the loop puts them, and later files do not disturb them.
- `mkuixfs_holds`: the same for the whole image.
- `uixfs_undoes_mkuixfs`: the image mounts, every file reads back under its name cut to 23 bytes, no other name is
  found.
-/
import Uix.Fs.UixfsSpec

namespace Uix

open Machine Bytes List
open Pmm (pageIdx pageAddr)

/-! ## The writer -/

namespace Mkuixfs

def sect : ℕ := 512

def nfilesMax : ℕ := 32

/-- the length of `img` -/
def imgSize : ℕ := 8 * 1024 * 1024

/-- a name, encoded, and the contents of the file -/
abbrev File := List (BitVec 8) × List (BitVec 8)

/-- `img[off:off + len(b)] = b` -/
def setSlice (img : List (BitVec 8)) (off : ℕ) (b : List (BitVec 8)) : List (BitVec 8) :=
  img.take off ++ b ++ img.drop (off + b.length)

/-- `struct.pack_into` of packed fields; `none` for `struct.error` -/
def packInto (img : List (BitVec 8)) (off : ℕ) (b : List (BitVec 8)) : Option (List (BitVec 8)) :=
  if off + b.length ≤ img.length then some (setSlice img off b) else none

/-- four bytes, the lowest first -/
def leBytes (v : ℕ) : List (BitVec 8) := (List.range 4).map fun i => BitVec.ofNat 8 (v / 256 ^ i)

/-- the format `<I`; `none` for `struct.error` -/
def packI (v : ℕ) : Option (List (BitVec 8)) := if v < 2 ^ 32 then some (leBytes v) else none

/-- the format `<ns` -/
def packS (n : ℕ) (b : List (BitVec 8)) : List (BitVec 8) := b.take n ++ List.replicate (n - b.length) 0

/-- the size of a file on the disk -/
def padded (blob : List (BitVec 8)) : ℕ := (blob.length + sect - 1) / sect * sect

def entryOff : ℕ := sect

def dataOff : ℕ := (sect + nfilesMax * 32 + sect - 1) / sect * sect

/-- the loop of `main` at file `i`, with the data going to `cur` -/
def writeFiles : List (BitVec 8) → ℕ → ℕ → List File → Option (List (BitVec 8))
  | img, _, _, [] => some img
  | img, cur, i, (name, blob) :: files => do
    let size ← packI blob.length
    let lba ← packI (cur / sect)
    let img ← packInto img (entryOff + i * 32) (packS 24 (name.take 23) ++ size ++ lba)
    writeFiles (setSlice img cur blob) (cur + padded blob) (i + 1) files

/-- `main` -/
def mkuixfs (files : List File) : Option (List (BitVec 8)) := do
  let n ← packI files.length
  let img ← packInto (List.replicate imgSize 0) 0 (packS 4 Uixfs.magic ++ n)
  writeFiles img dataOff 0 files

/-- the disk with the given image -/
def imageDisk (img : List (BitVec 8)) : Disk := fun lba =>
  if sect * lba + sect ≤ img.length then some fun y => img.getD (sect * lba + y) 0 else none

/-! ## Bytes of the image -/

section Bytes

variable {img b : List (BitVec 8)} {off : ℕ}

theorem setSlice_length (h : off + b.length ≤ img.length) : (setSlice img off b).length = img.length := by
  rw [setSlice, length_append, length_append, length_take, length_drop]
  omega

theorem setSlice_getD (h : off + b.length ≤ img.length) (x : ℕ) :
    (setSlice img off b).getD x 0 = if off ≤ x ∧ x < off + b.length then b.getD (x - off) 0 else img.getD x 0 := by
  have htake : (img.take off).length = off := length_take_of_le (by omega)
  rw [setSlice, append_assoc]
  by_cases h1 : x < off
  · rw [if_neg (by omega), getD_append _ _ _ _ (by omega), getD_eq_getElem?_getD, getD_eq_getElem?_getD,
      getElem?_take_of_lt h1]
  · rw [getD_append_right _ _ _ _ (by omega), htake]
    by_cases h2 : x < off + b.length
    · rw [if_pos ⟨by omega, h2⟩, getD_append _ _ _ _ (by omega)]
    · rw [if_neg (by omega), getD_append_right _ _ _ _ (by omega), getD_eq_getElem?_getD,
        getD_eq_getElem?_getD, getElem?_drop]
      congr 2
      omega

theorem packI_some {v : ℕ} (h : v < 2 ^ 32) : packI v = some (leBytes v) := if_pos h

theorem leBytes_length (v : ℕ) : (leBytes v).length = 4 := rfl

/-- a packed number reads back -/
theorem load_packed {m : ℕ → BitVec 8} {a v : ℕ} (hv : v < 2 ^ 32)
    (h : ∀ i < 4, m (a + i) = (leBytes v).getD i 0) : load m a 4 = v := by
  rw [← load_store_eq (m := m) (a := a) (n := 4) (v := v) (by norm_num; omega)]
  refine load_congr fun x h1 h2 => ?_
  obtain ⟨y, rfl⟩ := Nat.exists_eq_add_of_le h1
  have hy : y < 4 := by omega
  rw [store, if_pos ⟨h1, h2⟩, h y hy, Nat.add_sub_cancel_left]
  interval_cases y <;> rfl

theorem packS_length {n : ℕ} (h : b.length ≤ n) : (packS n b).length = n := by
  rw [packS, length_append, length_take, length_replicate]
  omega

theorem packS_getD {n : ℕ} (h : b.length ≤ n) (x : ℕ) : (packS n b).getD x 0 = b.getD x 0 := by
  rw [packS, take_of_length_le h]
  by_cases hx : x < b.length
  · exact getD_append _ _ _ _ hx
  · rw [getD_append_right _ _ _ _ (by omega), getD_eq_default b _ (by omega), getD_eq_getElem?_getD,
      getElem?_replicate]
    split_ifs <;> rfl

end Bytes

/-! ## Where the files are -/

/-- entry `i` names the file, and the file is at `cur` -/
structure Holds (m : ℕ → BitVec 8) (i cur : ℕ) (f : File) : Prop where
  name : ∀ x < 24, m (512 + 32 * i + x) = (f.1.take 23).getD x 0
  size : load m (512 + 32 * i + 24) 4 = f.2.length
  lba : load m (512 + 32 * i + 28) 4 = cur / 512
  data : ∀ x < f.2.length, m (cur + x) = f.2.getD x 0

/-- a file keeps its place when its entry and its data do -/
theorem Holds.congr {m m' : ℕ → BitVec 8} {i cur : ℕ} {f : File} (h : Holds m i cur f)
    (he : ∀ x < 32, m' (512 + 32 * i + x) = m (512 + 32 * i + x)) (hd : ∀ x < f.2.length, m' (cur + x) = m (cur + x)) :
    Holds m' i cur f := by
  have hload : ∀ o, o + 4 ≤ 32 → load m' (512 + 32 * i + o) 4 = load m (512 + 32 * i + o) 4 := by
    intro o ho
    refine load_congr fun x h1 h2 => ?_
    have := he (x - (512 + 32 * i)) (by omega)
    rwa [Nat.add_sub_cancel' (by omega)] at this
  refine ⟨fun x hx => (he x (by omega)).trans (h.name x hx), (hload 24 (by omega)).trans h.size,
    (hload 28 (by omega)).trans h.lba, fun x hx => (hd x hx).trans (h.data x hx)⟩

theorem le_padded (blob : List (BitVec 8)) : blob.length ≤ padded blob ∧ padded blob % 512 = 0 := by
  simp only [padded, sect]
  omega

/-- an entry of 32 bytes: the name with its zeros, the size, the LBA -/
theorem entry_getD {name size lba : List (BitVec 8)} (hn : name.length ≤ 24) (hs : size.length = 4)
    (hl : lba.length = 4) :
    (packS 24 name ++ size ++ lba).length = 32 ∧ (∀ x < 24, (packS 24 name ++ size ++ lba).getD x 0 = name.getD x 0) ∧
      (∀ y < 4, (packS 24 name ++ size ++ lba).getD (24 + y) 0 = size.getD y 0) ∧
      ∀ y < 4, (packS 24 name ++ size ++ lba).getD (28 + y) 0 = lba.getD y 0 := by
  have h24 := packS_length hn
  have h28 : (packS 24 name ++ size).length = 28 := by rw [length_append, h24, hs]
  refine ⟨by rw [length_append, h28, hl], fun x hx => ?_, fun y hy => ?_, fun y hy => ?_⟩
  · rw [getD_append _ _ _ _ (by omega), getD_append _ _ _ _ (by omega), packS_getD hn]
  · rw [getD_append _ _ _ _ (by omega), getD_append_right _ _ _ _ (by omega), h24, Nat.add_sub_cancel_left]
  · rw [getD_append_right _ _ _ _ (by omega), h28, Nat.add_sub_cancel_left]

/-- one round of the loop -/
theorem writeFile_holds {img : List (BitVec 8)} {cur i : ℕ} {f : File} (hi : i < 32) (hcur : 1536 ≤ cur)
    (hsize : cur + f.2.length ≤ img.length) (hlen : img.length < 2 ^ 32) :
    ∃ img', (∀ files, writeFiles img cur i (f :: files) = writeFiles img' (cur + padded f.2) (i + 1) files) ∧
      img'.length = img.length ∧ Holds (img'.getD · 0) i cur f ∧
      ∀ x, x < 512 + 32 * i ∨ (512 + 32 * (i + 1) ≤ x ∧ x < cur) → img'.getD x 0 = img.getD x 0 := by
  have hn : (f.1.take 23).length ≤ 24 := by
    rw [length_take]
    omega
  have hE := entry_getD hn (leBytes_length f.2.length) (leBytes_length (cur / 512))
  have hwrite : ∀ files, writeFiles img cur i (f :: files) = (packInto img (512 + i * 32)
      (packS 24 (f.1.take 23) ++ leBytes f.2.length ++ leBytes (cur / 512))).bind
        fun img => writeFiles (setSlice img cur f.2) (cur + padded f.2) (i + 1) files := fun files => by
    rw [writeFiles, packI_some (show f.2.length < 2 ^ 32 by omega),
      packI_some (show cur / sect < 2 ^ 32 by rw [sect]; omega)]
    rfl
  obtain ⟨h32, hname, hsz, hlba⟩ := hE
  generalize packS 24 (f.1.take 23) ++ leBytes f.2.length ++ leBytes (cur / 512) = entry at hwrite h32 hname hsz hlba
  have hin : 512 + i * 32 + entry.length ≤ img.length := by omega
  have hlen1 := setSlice_length hin
  have hin2 : cur + f.2.length ≤ (setSlice img (512 + i * 32) entry).length := by omega
  -- the entry as it stands in the image: the data comes after it
  have hbyte : ∀ x < 32, (setSlice (setSlice img (512 + i * 32) entry) cur f.2).getD (512 + 32 * i + x) 0 =
      entry.getD x 0 := by
    intro x hx
    rw [setSlice_getD hin2, if_neg (by omega), setSlice_getD hin, if_pos (by omega)]
    congr 1
    omega
  refine ⟨setSlice (setSlice img (512 + i * 32) entry) cur f.2, fun files => ?_, ?_, ⟨?_, ?_, ?_, ?_⟩, ?_⟩
  · rw [hwrite, packInto, if_pos hin]
    rfl
  · rw [setSlice_length hin2, hlen1]
  · intro x hx
    rw [hbyte x (by omega), hname x hx]
  · refine load_packed (by omega) fun y hy => ?_
    rw [Nat.add_assoc, hbyte _ (by omega), hsz y hy]
  · refine load_packed (by omega) fun y hy => ?_
    rw [Nat.add_assoc, hbyte _ (by omega), hlba y hy]
  · intro x hx
    rw [setSlice_getD hin2, if_pos (by omega), Nat.add_sub_cancel_left]
  · intro x hx
    rw [setSlice_getD hin2, if_neg (by omega), setSlice_getD hin, if_neg (by omega)]

/-- where the data of file `j` goes -/
def place (cur : ℕ) (files : List File) (j : ℕ) : ℕ := cur + ((files.take j).map fun f => padded f.2).sum

/-- **The loop of `main`** puts every file in its place. -/
theorem writeFiles_spec {files : List File} {img : List (BitVec 8)} {cur i : ℕ} (hi : i + files.length ≤ 32)
    (hcur : 1536 ≤ cur) (hsize : cur + (files.map fun f => padded f.2).sum ≤ img.length) (hlen : img.length < 2 ^ 32) :
    ∃ img', writeFiles img cur i files = some img' ∧ img'.length = img.length ∧
      (∀ j f, files[j]? = some f → Holds (img'.getD · 0) (i + j) (place cur files j) f) ∧
      ∀ x, x < 512 + 32 * i ∨ (512 + 32 * (i + files.length) ≤ x ∧ x < cur) → img'.getD x 0 = img.getD x 0 := by
  induction files generalizing img cur i with
  | nil => exact ⟨img, rfl, rfl, fun j f h => absurd h (by simp), fun _ _ => rfl⟩
  | cons f files ih =>
    rw [length_cons] at hi
    rw [map_cons, sum_cons] at hsize
    have hpad := le_padded f.2
    obtain ⟨img1, hstep, hlen1, hf, hframe1⟩ := writeFile_holds (i := i) (f := f) (by omega) hcur (by omega) hlen
    obtain ⟨img', hrun, hlen', hfiles, hframe⟩ := @ih img1 (cur + padded f.2) (i + 1) (by omega) (by omega)
      (by omega) (by omega)
    refine ⟨img', (hstep files).trans hrun, hlen'.trans hlen1, fun j g hj => ?_, fun x hx => ?_⟩
    · cases j with
      | zero =>
        rw [getElem?_cons_zero, Option.some.injEq] at hj
        subst hj
        -- the files after it do not disturb it
        refine hf.congr (fun x hx => hframe _ (.inl (by omega))) fun x hx => hframe _ (.inr ⟨?_, ?_⟩)
        · have : place cur (f :: files) 0 = cur := rfl
          omega
        · have : place cur (f :: files) 0 = cur := rfl
          omega
      | succ j =>
        have := hfiles j g hj
        rwa [show i + 1 + j = i + (j + 1) by omega,
          show place (cur + padded f.2) files j = place cur (f :: files) (j + 1) by
            simp only [place, take_succ_cons, map_cons, sum_cons]; omega] at this
    · rw [length_cons] at hx
      rw [hframe x (by omega), hframe1 x (by omega)]

/-- what `main` is given: at most 32 files, with names without NUL that differ in their first 23 bytes, none of them
empty, with room for all -/
structure Packable (files : List File) : Prop where
  count : files.length ≤ 32
  nulFree : ∀ f ∈ files, 0 ∉ f.1
  distinct : (files.map fun f => f.1.take 23).Nodup
  nonempty : ∀ f ∈ files, f.2 ≠ []
  room : (files.map fun f => padded f.2).sum ≤ imgSize - 1536

/-- **The image.** -/
theorem mkuixfs_holds {files : List File} (h : Packable files) :
    ∃ img, mkuixfs files = some img ∧ img.length = imgSize ∧ (∀ x < 4, img.getD x 0 = Uixfs.magic.getD x 0) ∧
      load (img.getD · 0) 4 4 = files.length ∧
      ∀ j f, files[j]? = some f → Holds (img.getD · 0) j (place 1536 files j) f := by
  have hcount := h.count
  have hroom := h.room
  have hsize : imgSize = 8388608 := rfl
  have hmagic : (packS 4 Uixfs.magic).length = 4 := rfl
  have h8 : (packS 4 Uixfs.magic ++ leBytes files.length).length = 8 := by
    rw [length_append, hmagic, leBytes_length]
  have hblank : ∃ blank : List (BitVec 8), replicate imgSize 0 = blank ∧ blank.length = imgSize :=
    ⟨_, rfl, length_replicate⟩
  obtain ⟨blank, hblank, h0⟩ := hblank
  have hin : 0 + (packS 4 Uixfs.magic ++ leBytes files.length).length ≤ blank.length := by omega
  have hlen := setSlice_length hin
  obtain ⟨img, hrun, hlen', hfiles, hframe⟩ := @writeFiles_spec files
    (setSlice blank 0 (packS 4 Uixfs.magic ++ leBytes files.length)) 1536 0 (by omega) le_rfl (by omega) (by omega)
  have hhead : ∀ x < 8, img.getD x 0 = (packS 4 Uixfs.magic ++ leBytes files.length).getD x 0 := by
    intro x hx
    rw [hframe x (.inl (by omega)), setSlice_getD hin, if_pos (by omega), Nat.sub_zero]
  refine ⟨img, ?_, by omega, fun x hx => ?_, ?_, fun j f hj => ?_⟩
  · rw [mkuixfs, packI_some (by omega), hblank]
    simp only [Option.bind_eq_bind, Option.bind_some, packInto]
    rw [if_pos hin]
    exact hrun
  · rw [hhead x (by omega), getD_append _ _ _ _ (by omega)]
    rfl
  · refine load_packed (by omega) fun y hy => ?_
    rw [hhead _ (by omega), getD_append_right _ _ _ _ (by omega), hmagic, Nat.add_sub_cancel_left]
  · have := hfiles j f hj
    rwa [Nat.zero_add] at this

/-! ## Reading it back -/

/-- the table of files is the same -/
structure SameTable (fs' fs : Uixfs) : Prop where
  entries : fs'.entries = fs.entries
  nfiles : fs'.nfiles = fs.nfiles
  mounted : fs'.mounted = fs.mounted

/-- the disk and the table of files that `mkuixfs` and `uixfs_mount` leave -/
structure Mounted (files : List File) (img : List (BitVec 8)) (fs : Uixfs) : Prop where
  size : img.length = imgSize
  mounted : fs.mounted = true
  nfiles : fs.nfiles = files.length
  entries : ∀ x < 32 * files.length, fs.entries x = img.getD (512 + x) 0
  holds : ∀ j f, files[j]? = some f → Holds (img.getD · 0) j (place 1536 files j) f

section Read

variable {files : List File} {img : List (BitVec 8)} {fs : Uixfs}

theorem imageDisk_some (hsize : img.length = imgSize) {lba : ℕ} (h : lba < 16384) :
    ∃ s, imageDisk img lba = some s ∧ ∀ y < 512, s y = img.getD (512 * lba + y) 0 := by
  have : imgSize = 8388608 := rfl
  refine ⟨_, if_pos ?_, fun _ _ => rfl⟩
  simp only [sect]
  omega

/-- **The image mounts.** -/
theorem mount_image (h : Packable files) (hrun : mkuixfs files = some img) (fs0 : Uixfs) :
    ∃ fs, fs0.uixfsMount (imageDisk img) = (0, fs) ∧ Mounted files img fs := by
  obtain ⟨img', hrun', hsize, hmagic, hn, hfiles⟩ := mkuixfs_holds h
  obtain rfl : img' = img := Option.some.inj (hrun'.symm.trans hrun)
  have hcount := h.count
  obtain ⟨s, hs, hbytes⟩ := @imageDisk_some _ hsize 0 (by omega)
  simp only [Nat.mul_zero, Nat.zero_add] at hbytes
  have hnfiles : load s 4 4 = files.length := by
    rw [← hn]
    exact load_congr fun x _ h2 => hbytes x (by omega)
  obtain ⟨fs, hloop, h1, -, -, -, h5⟩ := @Uixfs.mountEntries_spec (imageDisk img') (img'.getD · 0)
    (fun lba _ hlba => imageDisk_some hsize (by omega)) files.length 0
    { fs0 with sector := s, nfiles := files.length } (by omega) fun hi => absurd rfl hi
  refine ⟨{ fs with mounted := true }, ?_, ⟨hsize, rfl, h1, fun x hx => h5 x (by omega) (by omega), hfiles⟩⟩
  have hcmp : memcmp s 0 Uixfs.magic = 0 := by
    refine Uixfs.memcmp_eq_zero fun x hx => ?_
    have hx4 : x < 4 := hx
    rw [Nat.zero_add, hbytes x (by omega), hmagic x hx4]
  rw [Uixfs.uixfsMount, hs]
  simp only [hcmp, ne_eq, not_true_eq_false, if_false, hnfiles, Uixfs.nfilesMax, if_neg (Nat.not_lt.2 hcount), hloop]

/-- the name of entry `j` -/
theorem Mounted.strcmp (M : Mounted files img fs) (h : Packable files) {j : ℕ} {f : File} (hj : files[j]? = some f)
    {name : List (BitVec 8)} (hname : 0 ∉ name) :
    strcmp fs.entries (32 * j) name = 0 ↔ name = f.1.take 23 := by
  have hlt : j < files.length := (List.getElem?_eq_some_iff.1 hj).1
  refine Uixfs.strcmp_eq_zero (fun hc => h.nulFree f (mem_of_getElem? hj) (mem_of_mem_take hc)) hname ?_
  intro x hx
  have hx23 : x ≤ 23 := hx.trans (by rw [length_take]; omega)
  rw [M.entries _ (by omega), ← (M.holds j f hj).name x (by omega)]
  congr 1
  omega

theorem Mounted.lookup (M : Mounted files img fs) (h : Packable files) {j : ℕ} {f : File} (hj : files[j]? = some f) :
    fs.lookup (f.1.take 23) = some j := by
  have hlt : j < files.length := (List.getElem?_eq_some_iff.1 hj).1
  have hnul : 0 ∉ f.1.take 23 := fun hc => h.nulFree f (mem_of_getElem? hj) (mem_of_mem_take hc)
  rw [Uixfs.lookup, M.nfiles, find?_range_eq_some]
  refine ⟨decide_eq_true ((M.strcmp h hj hnul).2 rfl), mem_range.2 hlt, fun i hi => ?_⟩
  rw [Bool.not_eq_true', decide_eq_false_iff_not]
  intro hc
  -- an earlier entry has another name
  obtain ⟨g, hg⟩ : ∃ g, files[i]? = some g := ⟨_, List.getElem?_eq_getElem (by omega)⟩
  have heq := (M.strcmp h hg hnul).1 hc
  have hi' : (files.map fun f => f.1.take 23)[i]? = some (f.1.take 23) := by rw [getElem?_map, hg, heq]; rfl
  have hj' : (files.map fun f => f.1.take 23)[j]? = some (f.1.take 23) := by rw [getElem?_map, hj]; rfl
  have := (getElem?_inj (by rw [length_map]; omega) h.distinct).1 (hi'.trans hj'.symm)
  omega

theorem Mounted.lookup_none (M : Mounted files img fs) (h : Packable files) {name : List (BitVec 8)} (hname : 0 ∉ name)
    (hnot : ∀ f ∈ files, f.1.take 23 ≠ name) : fs.lookup name = none := by
  rw [Uixfs.lookup, find?_eq_none]
  intro i hi hc
  rw [M.nfiles, mem_range] at hi
  obtain ⟨g, hg⟩ : ∃ g, files[i]? = some g := ⟨_, List.getElem?_eq_getElem hi⟩
  exact hnot g (mem_of_getElem? hg) ((M.strcmp h hg hname).1 (of_decide_eq_true hc)).symm

theorem Mounted.same {fs' : Uixfs} (M : Mounted files img fs) (h : SameTable fs' fs) : Mounted files img fs' :=
  ⟨M.size, h.mounted.trans M.mounted, h.nfiles.trans M.nfiles,
    fun x hx => by rw [h.entries]; exact M.entries x hx, M.holds⟩

/-- the numbers in entry `j` -/
theorem Mounted.numbers (M : Mounted files img fs) {j : ℕ} {f : File} (hj : files[j]? = some f) :
    fs.size j = f.2.length ∧ fs.startLba j = place 1536 files j / 512 := by
  have hlt : j < files.length := (List.getElem?_eq_some_iff.1 hj).1
  have hload : ∀ o, o + 4 ≤ 32 → load fs.entries (32 * j + o) 4 = load (img.getD · 0) (512 + 32 * j + o) 4 := by
    intro o ho
    have hshift : ∀ n a, a + n ≤ 32 * files.length → load fs.entries a n = load (img.getD · 0) (512 + a) n := by
      intro n
      induction n with
      | zero => exact fun _ _ => rfl
      | succ n ih =>
        intro a ha
        rw [load, load, M.entries a (by omega), ih (a + 1) (by omega), Nat.add_assoc]
    rw [hshift 4 _ (by omega), Nat.add_assoc]
  exact ⟨(hload 24 (by omega)).trans (M.holds j f hj).size, (hload 28 (by omega)).trans (M.holds j f hj).lba⟩

theorem place_bounds {cur j : ℕ} {f : File} (hj : files[j]? = some f) (hmod : cur % 512 = 0) :
    place cur files j % 512 = 0 ∧ place cur files j + padded f.2 ≤ cur + (files.map fun f => padded f.2).sum := by
  induction files generalizing cur j with
  | nil => exact absurd hj (by simp)
  | cons g files ih =>
    rw [map_cons, sum_cons]
    cases j with
    | zero =>
      rw [getElem?_cons_zero, Option.some.injEq] at hj
      have hzero : place cur (g :: files) 0 = cur := rfl
      rw [hzero, hj]
      omega
    | succ j =>
      have hpad := le_padded g.2
      have := @ih (cur + padded g.2) j hj (by omega)
      have hsucc : place cur (g :: files) (j + 1) = place (cur + padded g.2) files j := by
        simp only [place, take_succ_cons, map_cons, sum_cons]
        omega
      omega

/-- the sectors of file `j` -/
theorem Mounted.sectors (M : Mounted files img fs) (h : Packable files) {j : ℕ} {f : File}
    (hj : files[j]? = some f) {t : ℕ}
    (ht : 512 * t < f.2.length) : ∃ s, imageDisk img (place 1536 files j / 512 + t) = some s ∧
      ∀ y < 512, 512 * t + y < f.2.length → s y = f.2.getD (512 * t + y) 0 := by
  have hsize : imgSize = 8388608 := rfl
  have hroom := h.room
  have hpad := le_padded f.2
  obtain ⟨hmod, hle⟩ := @place_bounds files 1536 j f hj (by omega)
  obtain ⟨s, hs, hbytes⟩ := @imageDisk_some _ M.size (place 1536 files j / 512 + t) (by omega)
  refine ⟨s, hs, fun y hy hlt => ?_⟩
  rw [hbytes y hy, ← (M.holds j f hj).data _ hlt]
  congr 1
  omega

/-- what a successful read leaves: the file in a buffer of pages in use -/
structure ReadBack (f : File) (fs fs' : Uixfs) (k' : Kern) (buf : PAddr) : Prop where
  table : SameTable fs' fs
  held : fs'.Held k'
  pmm : k'.pmm.Ok
  bytes : ∀ x < f.2.length, byteAt k'.mem (buf.toNat + x) = f.2.getD x 0

/-- **A file reads back**, when there is a run of pages for it. -/
theorem Mounted.read (M : Mounted files img fs) (h : Packable files) {k : Kern} (hheld : fs.Held k) (hk : k.pmm.Ok)
    {f : File} (hf : f ∈ files) (hrun : ∃ a, ∀ j, a ≤ j → j < a + (f.2.length + pageSize - 1) / pageSize →
      j ∈ k.pmm.freeSet ∨ j ∈ fs.bufPages) :
    ∃ buf fs' k', fs.uixfsRead (imageDisk img) (f.1.take 23) k = .ok (f.2.length, some buf, fs', k') ∧
      ReadBack f fs fs' k' buf := by
  obtain ⟨j, hj⟩ := getElem?_of_mem hf
  obtain ⟨hsz, hlba⟩ := M.numbers hj
  have hpos : 0 < f.2.length := length_pos_iff.2 (h.nonempty f hf)
  rw [Uixfs.uixfsRead, M.mounted, M.lookup h hj]
  simp only [Bool.not_true, Bool.false_eq_true, if_false, Uixfs.readEntry, hsz]
  rcases Uixfs.fileBufAlloc_spec hheld hk f.2.length with ⟨p, hp, hno, -⟩ | ⟨p, a, p', B, halloc⟩
  · -- there is a run of pages
    exfalso
    obtain ⟨a, ha⟩ := hrun
    rcases hno with hno | hno
    · omega
    · refine hno a fun j h1 h2 => ?_
      rw [hp.free, Finset.mem_union, mem_toFinset]
      exact ha j h1 h2
  · rw [halloc, ok_bind]
    simp only
    have hpages : 0 < (f.2.length + pageSize - 1) / pageSize := by
      rw [pageSize]
      omega
    have hfree := B.takes.run a le_rfl (by omega)
    have ha52 := Pmm.lt_of_free hfree B.gives.ok.small
    have hroom := h.room
    have hsize : imgSize = 8388608 := rfl
    have hpad := le_padded f.2
    obtain ⟨-, hle⟩ := @place_bounds files 1536 j f hj (by omega)
    generalize hbuf :
      ({ fs with fileBuf := some (pageAddr a), fileBufPages := (f.2.length + pageSize - 1) / pageSize } : Uixfs) = fs1
    have hlba1 : fs1.startLba j = place 1536 files j / 512 + 0 / 512 := by
      rw [← hbuf]
      exact hlba
    rw [hlba1]
    obtain ⟨s, k', hchunks, hbytes⟩ := @Uixfs.readChunks_content (imageDisk img) (pageAddr a)
      f.2.length (place 1536 files j / 512) (f.2.length + 1) 0 fs1 (k.setPmm p') (f.2.getD · 0) (by omega) (by omega)
        (.inl rfl)
      (fun t ht => M.sectors h hj ht) (fun x hx => absurd hx (Nat.not_lt_zero x)) (Nat.zero_le _)
    obtain ⟨b, s', k'', hchunks', F⟩ := @Uixfs.readChunks_spec (imageDisk img) (pageAddr a)
      f.2.length (f.2.length + 1) (place 1536 files j / 512 + 0 / 512) 0 fs1 (k.setPmm p') (by omega)
    have hpair := hchunks.symm.trans hchunks'
    simp only [Except.ok.injEq, Prod.mk.injEq] at hpair
    rw [← hpair.2.2] at F
    have hpmm : k'.pmm = p' := by rw [F.rest]; rfl
    rw [hchunks, ok_bind]
    refine ⟨pageAddr a, { fs1 with sector := s }, k', rfl, ?_, ⟨?_, ?_, ?_⟩, ?_, hbytes⟩
    · rw [← hbuf]
      exact ⟨rfl, rfl, rfl⟩
    · intro pa hpa
      rw [← hbuf] at hpa
      exact ⟨a, fun h0 => B.gives.ok.zero (h0 ▸ hfree), ha52, (Option.some.inj hpa).symm⟩
    · intro i hi
      rw [← hbuf, Uixfs.bufPages] at hi
      simp only [Pmm.pageIdx_pageAddr ha52, mem_range'_1] at hi
      rw [hpmm, B.takes.takes.len]
      exact (Pmm.mem_freeSet.1 (B.takes.run i hi.1 hi.2)).1
    · intro i hi
      rw [← hbuf, Uixfs.bufPages] at hi
      simp only [Pmm.pageIdx_pageAddr ha52] at hi
      rw [hpmm]
      exact B.takes.takes.draws.taken_notMem_free (mem_toFinset.2 hi)
    · rw [hpmm]
      exact B.takes.takes.ok

end Read

/-- **Decoding undoes encoding.** The image of at most 32 files mounts; from then on, in every state with the table that
`uixfs_mount` left, each file reads back under its name cut to 23 bytes if there is a run of pages for it, and any other
name is not found. -/
theorem uixfs_undoes_mkuixfs (files : List File) (h : Packable files) (fs0 : Uixfs) :
    ∃ img fs, mkuixfs files = some img ∧ fs0.uixfsMount (imageDisk img) = (0, fs) ∧ fs.nfiles = files.length ∧
      ∀ fs' k, SameTable fs' fs → fs'.Held k → k.pmm.Ok →
        (∀ f ∈ files, (∃ a, ∀ j, a ≤ j → j < a + (f.2.length + pageSize - 1) / pageSize →
            j ∈ k.pmm.freeSet ∨ j ∈ fs'.bufPages) →
          ∃ buf fs'' k', fs'.uixfsRead (imageDisk img) (f.1.take 23) k = .ok (f.2.length, some buf, fs'', k') ∧
            ReadBack f fs' fs'' k' buf) ∧
        ∀ name, 0 ∉ name → (∀ f ∈ files, f.1.take 23 ≠ name) →
          fs'.uixfsRead (imageDisk img) name k = .ok (-2, none, fs', k) := by
  obtain ⟨img, hmk, -⟩ := mkuixfs_holds h
  obtain ⟨fs, hmount, M⟩ := mount_image h hmk fs0
  refine ⟨img, fs, hmk, hmount, M.nfiles, fun fs' k hsame hheld hk => ⟨fun f hf hrun => ?_, fun name hname hnot => ?_⟩⟩
  · exact (M.same hsame).read h hheld hk hf hrun
  · rw [Uixfs.uixfsRead, (M.same hsame).mounted, (M.same hsame).lookup_none h hname hnot]
    rfl

/-- two sectors -/
def longFile : List (BitVec 8) := (List.range 600).map (BitVec.ofNat 8)

theorem longFile_length : longFile.length = 600 := by rw [longFile, length_map, length_range]

/-- a long file, named `a`, and one of three bytes, named `b` -/
def twoFiles : List File := [([0x61], longFile), ([0x62], [1, 2, 3])]

theorem twoFiles_packable : Packable twoFiles := by
  refine ⟨by decide, by decide, by decide, by decide +kernel, ?_⟩
  rw [show ((twoFiles.map fun f => padded f.2).sum) = 1536 by decide +kernel, imgSize]
  omega

/-- UIXFS before the mount -/
def unmounted : Uixfs := ⟨fun _ => 0, 0, false, fun _ => 0, none, 0⟩

/-- 64 pages, the first two in use -/
def emptyKern : Kern := ⟨fun _ _ => 0, Pmm.fresh 64 2 none, 1, pageAddr 1, pageAddr 1⟩

set_option maxRecDepth 4000 in
/-- both files are found and read, up to the last byte; `c` is not found -/
theorem uixfs_reads_two_files : ∃ img fs fs', mkuixfs twoFiles = some img ∧
    unmounted.uixfsMount (imageDisk img) = (0, fs) ∧ SameTable fs' fs ∧
    (∃ buf fs'' k', fs'.uixfsRead (imageDisk img) [0x61] emptyKern = .ok (600, some buf, fs'', k') ∧
      byteAt k'.mem (buf.toNat + 599) = 87) ∧
    (∃ buf fs'' k', fs'.uixfsRead (imageDisk img) [0x62] emptyKern = .ok (3, some buf, fs'', k') ∧
      byteAt k'.mem (buf.toNat + 2) = 3) ∧
    fs'.uixfsRead (imageDisk img) [0x63] emptyKern = .ok (-2, none, fs', emptyKern) := by
  obtain ⟨img, fs, hmk, hmount, -, hread⟩ := uixfs_undoes_mkuixfs twoFiles twoFiles_packable unmounted
  have hfree : emptyKern.pmm.freeSet = Finset.Ico 2 64 := Pmm.freeSet_fresh _ _ (by decide)
  set fs' : Uixfs := { fs with fileBuf := none, fileBufPages := 0 }
  have hheld : fs'.Held emptyKern :=
    ⟨fun pa hpa => absurd hpa (by simp [fs']), fun j hj => absurd hj (by simp [fs', Uixfs.bufPages]),
      fun j hj => absurd hj (by simp [fs', Uixfs.bufPages])⟩
  obtain ⟨hfiles, hnone⟩ := hread fs' emptyKern ⟨rfl, rfl, rfl⟩ hheld
    (Pmm.fresh_ok _ (by decide) (by decide) (by decide) (by decide))
  have hpage : ∀ n ≤ 600, ∃ a, ∀ j, a ≤ j → j < a + (n + pageSize - 1) / pageSize →
      j ∈ emptyKern.pmm.freeSet ∨ j ∈ fs'.bufPages := fun n hn => ⟨2, fun j h1 h2 => by
    rw [pageSize] at h2
    rw [hfree, Finset.mem_Ico]
    omega⟩
  obtain ⟨buf, fs1, k1, hrun, R⟩ := hfiles ([0x61], longFile) mem_cons_self (hpage _ longFile_length.le)
  obtain ⟨buf', fs2, k2, hrun', R'⟩ :=
    hfiles ([0x62], [1, 2, 3]) (mem_cons_of_mem _ mem_cons_self) (hpage _ (by decide))
  have hlast : byteAt k1.mem (buf.toNat + 599) = 87 := by
    rw [R.bytes 599 (lt_of_lt_of_eq (by decide) longFile_length.symm)]
    simp [longFile]
  exact ⟨img, fs, fs', hmk, hmount, ⟨rfl, rfl, rfl⟩, ⟨buf, fs1, k1, hrun, hlast⟩,
    ⟨buf', fs2, k2, hrun', R'.bytes 2 (by decide)⟩, hnone _ (by decide) (by decide +kernel)⟩

end Mkuixfs

end Uix
