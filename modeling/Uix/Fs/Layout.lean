/-
Where `src/tools/mkuixfs.py` puts things, for any number of files of any size.

The table of entries has room for 32 files before the data, and the image starts with 8 MiB; neither limit is checked.
An entry past the 32nd is written over the data of the first file. A slice assignment past the end of the image makes it
longer, but a file that would start past the end is put at the end instead, in front of the place that its entry names.

- `writeFiles_fit`: files that start within the image are where their entries say.
- `fit_of_holds`: and only those; a file that starts past the end of the image leaves the image too short for the last
  one.
- `fit_iff`: in terms of sizes.
- `image_well_laid_iff`: which images are well laid out.
- `limits_not_checked`: 33 files, and a file after one that ends in the middle of a sector past 8 MiB.
-/
import Uix.Fs.RoundTrip
import Uix.Lib.Tiles

namespace Uix.Mkuixfs

open List

open Tiles (In)

/-- where the entries say that the data is: `start_lba * 512` and the size -/
def extents : ℕ → List File → List (ℕ × ℕ)
  | _, [] => []
  | cur, f :: files => (cur / sect * sect, f.2.length) :: extents (cur + padded f.2) files

/-- no byte is in both -/
def Clear (b c : ℕ × ℕ) : Prop := ∀ x, ¬ (In x b ∧ In x c)

/-- each extent holds its file -/
def HoldsAll (img : List (BitVec 8)) (cur : ℕ) (files : List File) : Prop :=
  List.Forall₂ (fun e f => ∀ x < f.2.length, img[e.1 + x]? = f.2[x]?) (extents cur files) files

/-- the sector of the superblock, the table of all entries and the extents have no byte in common, and each extent holds
its file -/
structure WellLaid (files : List File) (img : List (BitVec 8)) : Prop where
  apart : ((0, sect) :: (entryOff, 32 * files.length) :: extents dataOff files).Pairwise Clear
  holds : HoldsAll img dataOff files

/-- the table ends before the data, and a file with another one to come does not end in the middle of a sector past 8
MiB; a file without bytes does not count -/
structure Sized (files : List File) : Prop where
  table : files.length ≤ nfilesMax ∨ ∀ f ∈ files, f.2 = []
  ends : ∀ pre g post, files = pre ++ g :: post → g.2.length % sect ≠ 0 → (∃ f ∈ post, f.2 ≠ []) →
    dataOff + ((pre ++ [g]).map fun f => padded f.2).sum ≤ imgSize

/-- every file with bytes starts within the image, which has `len` bytes at first -/
def Fit : ℕ → ℕ → List File → Prop
  | _, _, [] => True
  | len, cur, f :: files => (f.2 ≠ [] → cur ≤ len) ∧
    Fit (if f.2 = [] then len else max len (cur + f.2.length)) (cur + padded f.2) files

/-! ## Slice assignment -/

section Slice

variable {img b : List (BitVec 8)} {off : ℕ}

theorem setSlice_nil (img : List (BitVec 8)) (off : ℕ) : setSlice img off [] = img := by
  rw [setSlice, append_nil, length_nil, Nat.add_zero, take_append_drop]

/-- past the end a slice is appended -/
theorem setSlice_beyond (h : img.length < off) : setSlice img off b = img ++ b := by
  rw [setSlice, take_of_length_le (by omega), drop_of_length_le (by omega), append_nil]

theorem setSlice_grow (h : off ≤ img.length) : (setSlice img off b).length = max img.length (off + b.length) := by
  rw [setSlice, length_append, length_append, length_take, length_drop]
  omega

theorem setSlice_getElem? (h : off ≤ img.length) (x : ℕ) :
    (setSlice img off b)[x]? = if off ≤ x ∧ x < off + b.length then b[x - off]? else img[x]? := by
  have htake : (img.take off).length = off := length_take_of_le h
  rw [setSlice, append_assoc]
  by_cases h1 : x < off
  · rw [if_neg (by omega), getElem?_append_left (by omega), getElem?_take_of_lt h1]
  · rw [getElem?_append_right (by omega), htake]
    by_cases h2 : x < off + b.length
    · rw [if_pos ⟨by omega, h2⟩, getElem?_append_left (by omega)]
    · rw [if_neg (by omega), getElem?_append_right (by omega), getElem?_drop]
      congr 1
      omega

end Slice

/-! ## The loop -/

section Loop

variable {img img' : List (BitVec 8)} {cur i : ℕ} {f : File} {files : List File}

/-- one round: the entry changes bytes of the table, then the data is put in -/
theorem writeFiles_cons (hrun : writeFiles img cur i (f :: files) = some img') :
    ∃ img1, img1.length = img.length ∧ (∀ x, 512 + 32 * (i + 1) ≤ x → img1[x]? = img[x]?) ∧
      writeFiles (setSlice img1 cur f.2) (cur + padded f.2) (i + 1) files = some img' := by
  rw [writeFiles] at hrun
  obtain ⟨size, hsize, hrun⟩ := Option.bind_eq_some_iff.1 hrun
  obtain ⟨lba, hlba, hrun⟩ := Option.bind_eq_some_iff.1 hrun
  obtain ⟨img1, hpack, hrun⟩ := Option.bind_eq_some_iff.1 hrun
  have hpacked : ∀ {v : ℕ} {b : List (BitVec 8)}, packI v = some b → b.length = 4 := by
    intro v b hb
    unfold packI at hb
    split_ifs at hb
    rw [← Option.some.inj hb, leBytes_length]
  have h32 : (packS 24 (f.1.take 23) ++ size ++ lba).length = 32 := by
    rw [length_append, length_append, packS_length (by rw [length_take]; omega), hpacked hsize, hpacked hlba]
  unfold packInto at hpack
  split_ifs at hpack with hin
  obtain rfl := Option.some.inj hpack
  rw [h32, entryOff, sect] at hin
  refine ⟨_, setSlice_length (by rw [h32]; exact hin), fun x hx => ?_, hrun⟩
  rw [setSlice_getElem? (by rw [entryOff, sect]; omega), h32, entryOff, sect, if_neg (by omega)]

/-- files without bytes leave the length of the image -/
theorem writeFiles_empty (hrun : writeFiles img cur i files = some img') (h : ∀ f ∈ files, f.2 = []) :
    img'.length = img.length := by
  induction files generalizing img cur i with
  | nil => rw [Option.some.inj hrun]
  | cons f files ih =>
    obtain ⟨img1, hlen, -, hrun⟩ := writeFiles_cons hrun
    obtain ⟨hf, h⟩ := forall_mem_cons.1 h
    rw [hf, setSlice_nil] at hrun
    rw [ih hrun h, hlen]

/-- the image after a file that starts within it -/
theorem setSlice_len (img1 : List (BitVec 8)) (hf : f.2 ≠ [] → cur ≤ img1.length) :
    (setSlice img1 cur f.2).length = if f.2 = [] then img1.length else max img1.length (cur + f.2.length) := by
  split_ifs with hnil
  · rw [hnil, setSlice_nil]
  · exact setSlice_grow (hf hnil)

/-- **Files that start within the image** are where their entries say, and leave what is before them. -/
theorem writeFiles_fit (hi : i + files.length ≤ 32) (hcur : 1536 ≤ cur) (hal : cur % 512 = 0)
    (hfit : Fit img.length cur files) (hrun : writeFiles img cur i files = some img') :
    HoldsAll img' cur files ∧ ∀ x, 1536 ≤ x → x < cur → img'[x]? = img[x]? := by
  induction files generalizing img cur i with
  | nil => exact ⟨.nil, fun x _ _ => by rw [Option.some.inj hrun]⟩
  | cons f files ih =>
    obtain ⟨img1, hlen, hframe, hrun⟩ := writeFiles_cons hrun
    obtain ⟨hf, hfit⟩ := hfit
    rw [length_cons] at hi
    have hpad := le_padded f.2
    rw [← hlen] at hf hfit
    rw [← setSlice_len img1 hf] at hfit
    obtain ⟨hall, hkeep⟩ := ih (by omega) (by omega) (by omega) hfit hrun
    have hstart : cur / sect * sect = cur := by
      rw [sect]
      omega
    refine ⟨.cons (fun x hx => ?_) hall, fun x h1 h2 => ?_⟩
    · have hne : f.2 ≠ [] := length_pos_iff.1 (by omega)
      dsimp only
      rw [hstart, hkeep _ (by omega) (by omega), setSlice_getElem? (hf hne), if_pos (by omega), Nat.add_sub_cancel_left]
    · rw [hkeep x h1 (by omega)]
      by_cases hnil : f.2 = []
      · rw [hnil, setSlice_nil]
        exact hframe x (by omega)
      · rw [setSlice_getElem? (hf hnil), if_neg (by omega)]
        exact hframe x (by omega)

/-- **A file that would start past the end.** From there on the image stays behind the places, so the last file with
bytes ends past it. -/
theorem empty_of_holds (hal : cur % 512 = 0) (hpast : img.length < cur) (hrun : writeFiles img cur i files = some img')
    (hall : HoldsAll img' cur files) : ∀ f ∈ files, f.2 = [] := by
  induction files generalizing img cur i with
  | nil => exact fun f hf => absurd hf not_mem_nil
  | cons f files ih =>
    obtain ⟨img1, hlen, -, hrun⟩ := writeFiles_cons hrun
    obtain ⟨hf, hall⟩ := List.forall₂_cons.1 hall
    have hpad := le_padded f.2
    have hlen1 : (setSlice img1 cur f.2).length = img.length + f.2.length := by
      rw [setSlice_beyond (by omega), length_append, hlen]
    have hrest := ih (by omega) (by omega) hrun hall
    refine forall_mem_cons.2 ⟨?_, hrest⟩
    by_contra hne
    have hpos := length_pos_iff.2 hne
    have hlast := hf (f.2.length - 1) (by omega)
    have hsome : f.2[f.2.length - 1]? ≠ none := by
      rw [List.getElem?_eq_getElem (by omega)]
      exact Option.some_ne_none _
    rw [← hlast] at hsome
    apply hsome
    rw [List.getElem?_eq_none_iff, writeFiles_empty hrun hrest, hlen1, sect]
    dsimp only
    omega

/-- **Only files that start within the image** are where their entries say. -/
theorem fit_of_holds (hal : cur % 512 = 0) (hrun : writeFiles img cur i files = some img')
    (hall : HoldsAll img' cur files) : Fit img.length cur files := by
  induction files generalizing img cur i with
  | nil => trivial
  | cons f files ih =>
    have hf : f.2 ≠ [] → cur ≤ img.length := by
      intro hne
      by_contra hpast
      exact hne (empty_of_holds hal (by omega) hrun hall f mem_cons_self)
    obtain ⟨img1, hlen, -, hrun⟩ := writeFiles_cons hrun
    obtain ⟨-, hall⟩ := List.forall₂_cons.1 hall
    have hpad := le_padded f.2
    refine ⟨hf, ?_⟩
    rw [← hlen] at hf ⊢
    rw [← setSlice_len img1 hf]
    exact ih (by omega) hrun hall

end Loop

/-! ## Sizes -/

section Sizes

variable {len cur : ℕ} {f : File} {files : List File}

theorem padded_eq (blob : List (BitVec 8)) :
    (blob.length % sect = 0 ∧ padded blob = blob.length) ∨ (blob.length % sect ≠ 0 ∧ blob.length < padded blob) := by
  simp only [padded, sect]
  omega

/-- past the end only files without bytes fit -/
theorem fit_past (h : len < cur) : Fit len cur files ↔ ∀ f ∈ files, f.2 = [] := by
  induction files generalizing cur with
  | nil => exact iff_of_true trivial fun f hf => absurd hf not_mem_nil
  | cons f files ih =>
    rw [Fit, forall_mem_cons]
    by_cases hnil : f.2 = []
    · rw [if_pos hnil, ih (by omega)]
      exact and_congr_left fun _ => iff_of_true (fun hc => absurd hnil hc) hnil
    · exact iff_of_false (fun hc => by have := hc.1 hnil; omega) fun hc => hnil hc.1

/-- a file with bytes to come after one that ends in the middle of a sector starts within the first `len` bytes -/
def Ends (len cur : ℕ) (files : List File) : Prop :=
  ∀ pre g post, files = pre ++ g :: post → g.2.length % sect ≠ 0 → (∃ f ∈ post, f.2 ≠ []) →
    cur + ((pre ++ [g]).map fun f => padded f.2).sum ≤ len

theorem ends_cons : Ends len cur (f :: files) ↔
    (f.2.length % sect ≠ 0 → (∃ f ∈ files, f.2 ≠ []) → cur + padded f.2 ≤ len) ∧ Ends len (cur + padded f.2) files := by
  constructor
  · intro h
    refine ⟨fun hmid hmore => ?_, fun pre g post hsplit hmid hmore => ?_⟩
    · simpa using h [] f files rfl hmid hmore
    · have := h (f :: pre) g post (by rw [hsplit]; rfl) hmid hmore
      rwa [cons_append, map_cons, sum_cons, ← Nat.add_assoc] at this
  · rintro ⟨hf, h⟩ pre g post hsplit hmid hmore
    cases pre with
    | nil =>
      obtain ⟨rfl, rfl⟩ := cons.inj hsplit
      simpa using hf hmid hmore
    | cons p pre =>
      obtain ⟨rfl, hrest⟩ := cons.inj hsplit
      have := h pre g post hrest hmid hmore
      rwa [cons_append, map_cons, sum_cons, ← Nat.add_assoc]

/-- files after the end of a whole sector are not told from files within the image -/
theorem ends_max : Ends (max len cur) cur files ↔ Ends len cur files := by
  refine forall₃_congr fun pre g post => forall_congr' fun _ => forall_congr' fun hmid => forall_congr' fun _ => ?_
  have hpos : 0 < ((pre ++ [g]).map fun f => padded f.2).sum := by
    rw [map_append, sum_append, map_singleton, sum_singleton]
    rcases padded_eq g.2 with h | h
    · exact absurd h.1 hmid
    · omega
  omega

/-- **The condition in terms of sizes.** -/
theorem fit_iff (h : cur ≤ len) : Fit len cur files ↔ Ends len cur files := by
  induction files generalizing len cur with
  | nil =>
    refine iff_of_true trivial fun pre g post hsplit => ?_
    exact absurd hsplit (by simp)
  | cons f files ih =>
    rw [Fit, and_iff_right fun _ => h, ends_cons]
    have hlen : (if f.2 = [] then len else max len (cur + f.2.length)) = max len (cur + f.2.length) := by
      split_ifs with hnil
      · rw [hnil, length_nil]
        omega
      · rfl
    rw [hlen]
    rcases padded_eq f.2 with ⟨hwhole, hpad⟩ | ⟨hmid, hpad⟩
    · -- the file ends with its last sector
      rw [hpad, ih (le_max_right _ _), ends_max]
      exact (and_iff_right fun hc => absurd hwhole hc).symm
    · by_cases hin : cur + padded f.2 ≤ len
      · rw [max_eq_left (by omega), ih hin]
        exact (and_iff_right fun _ _ => hin).symm
      · rw [fit_past (by omega)]
        constructor
        · intro hempty
          have hnone : ¬ ∃ f ∈ files, f.2 ≠ [] := by
            rintro ⟨g, hg, hne⟩
            exact hne (hempty g hg)
          refine ⟨fun _ hmore => absurd hmore hnone, fun pre g post hsplit hmid' _ => ?_⟩
          have hg := hempty g (by rw [hsplit]; exact mem_append_right _ mem_cons_self)
          rw [hg] at hmid'
          exact absurd rfl hmid'
        · rintro ⟨hf, -⟩ g hg
          by_contra hne
          exact hin (hf hmid ⟨g, hg, hne⟩)

end Sizes

/-! ## The regions -/

section Regions

variable {cur : ℕ} {files : List File}

theorem extents_ge (hal : cur % 512 = 0) : ∀ e ∈ extents cur files, cur ≤ e.1 := by
  induction files generalizing cur with
  | nil => exact fun e he => absurd he not_mem_nil
  | cons f files ih =>
    have hpad := le_padded f.2
    refine forall_mem_cons.2 ⟨?_, fun e he => ?_⟩
    · simp only [sect]
      omega
    · have := ih (by omega) e he
      omega

theorem extents_clear (hal : cur % 512 = 0) : (extents cur files).Pairwise Clear := by
  induction files generalizing cur with
  | nil => exact .nil
  | cons f files ih =>
    have hpad := le_padded f.2
    refine pairwise_cons.2 ⟨fun e he x hx => ?_, ih (by omega)⟩
    have hal2 : (cur + padded f.2) % 512 = 0 := by omega
    have hge := extents_ge hal2 e he
    obtain ⟨⟨-, h1⟩, h2, -⟩ := hx
    simp only [sect] at h1
    omega

theorem extents_empty (h : ∀ f ∈ files, f.2 = []) : ∀ e ∈ extents cur files, e.2 = 0 := by
  induction files generalizing cur with
  | nil => exact fun e he => absurd he not_mem_nil
  | cons f files ih =>
    obtain ⟨hf, h⟩ := forall_mem_cons.1 h
    refine forall_mem_cons.2 ⟨?_, ih h⟩
    change f.2.length = 0
    rw [hf]
    rfl

/-- the first file with bytes is at the start of the data -/
theorem extents_first (hal : cur % 512 = 0) (h : ∃ f ∈ files, f.2 ≠ []) :
    ∃ e ∈ extents cur files, e.1 = cur ∧ 0 < e.2 := by
  induction files generalizing cur with
  | nil =>
    obtain ⟨f, hf, -⟩ := h
    exact absurd hf not_mem_nil
  | cons f files ih =>
    by_cases hnil : f.2 = []
    · have hrest : ∃ f ∈ files, f.2 ≠ [] := by
        obtain ⟨g, hg, hne⟩ := h
        rcases mem_cons.1 hg with rfl | hg
        · exact absurd hnil hne
        · exact ⟨g, hg, hne⟩
      have hpad : padded f.2 = 0 := by
        rw [hnil]
        rfl
      obtain ⟨e, he, hstart, hpos⟩ := @ih (cur + padded f.2) (by omega) hrest
      exact ⟨e, mem_cons_of_mem _ he, by omega, hpos⟩
    · refine ⟨_, mem_cons_self, ?_, length_pos_iff.2 hnil⟩
      simp only [sect]
      omega

/-- the table and the data have no byte in common if the table is short, or there is no data -/
theorem regions_clear_iff : ((0, sect) :: (entryOff, 32 * files.length) :: extents dataOff files).Pairwise Clear ↔
    files.length ≤ nfilesMax ∨ ∀ f ∈ files, f.2 = [] := by
  have hal : dataOff % 512 = 0 := by decide
  have hdata : dataOff = 1536 := rfl
  have hge := @extents_ge dataOff files hal
  rw [pairwise_cons, pairwise_cons, and_iff_left (extents_clear hal), and_iff_right]
  · constructor
    · intro h
      by_contra hc
      rw [not_or, Nat.not_le, nfilesMax] at hc
      obtain ⟨hmany, hsome⟩ := hc
      push Not at hsome
      obtain ⟨e, he, hstart, hpos⟩ := extents_first hal hsome
      refine h e he 1536 ⟨⟨?_, ?_⟩, ?_, ?_⟩
      · exact show 512 ≤ 1536 by decide
      · change 1536 < 512 + 32 * files.length
        omega
      · omega
      · omega
    · intro h e he x hx
      obtain ⟨⟨h1, h2⟩, h3, h4⟩ := hx
      have hcur := hge e he
      rw [entryOff, sect] at h2
      dsimp only at h2
      rcases h with h | h
      · rw [nfilesMax] at h
        omega
      · have := extents_empty h e he
        omega
  · intro e he x hx
    obtain ⟨⟨-, h1⟩, h2, -⟩ := hx
    rw [sect] at h1
    dsimp only at h1
    rcases mem_cons.1 he with rfl | he
    · rw [entryOff, sect] at h2
      omega
    · have := hge e he
      omega

end Regions

/-- what is left of `main` after the superblock -/
theorem mkuixfs_loop {files : List File} {img : List (BitVec 8)} (hrun : mkuixfs files = some img) :
    ∃ img0, img0.length = imgSize ∧ writeFiles img0 dataOff 0 files = some img := by
  obtain ⟨n, -, hrun⟩ := Option.bind_eq_some_iff.1 hrun
  obtain ⟨img0, hpack, hrun⟩ := Option.bind_eq_some_iff.1 hrun
  unfold packInto at hpack
  split_ifs at hpack with hin
  rw [← Option.some.inj hpack] at hrun
  exact ⟨_, (setSlice_length hin).trans length_replicate, hrun⟩

/-- **Which images are well laid out.** -/
theorem image_well_laid_iff (files : List File) (img : List (BitVec 8)) (hrun : mkuixfs files = some img) :
    WellLaid files img ↔ Sized files := by
  obtain ⟨img0, hlen, hloop⟩ := mkuixfs_loop hrun
  have hal : dataOff % 512 = 0 := by decide
  have hfit : Fit img0.length dataOff files ↔ Ends imgSize dataOff files := by
    rw [hlen]
    exact fit_iff (by decide)
  constructor
  · rintro ⟨hapart, hall⟩
    exact ⟨regions_clear_iff.1 hapart, hfit.1 (fit_of_holds hal hloop hall)⟩
  · rintro ⟨htable, hends⟩
    refine ⟨regions_clear_iff.2 htable, ?_⟩
    rcases htable with hcount | hempty
    · exact (writeFiles_fit (by rw [Nat.zero_add]; exact hcount) (by decide) hal (hfit.2 hends) hloop).1
    · -- no file has a byte
      have hnone : ∀ (cur : ℕ) (files : List File), (∀ f ∈ files, f.2 = []) → HoldsAll img cur files := by
        intro cur files h
        induction files generalizing cur with
        | nil => exact .nil
        | cons f files ih =>
          obtain ⟨hf, h⟩ := List.forall_mem_cons.1 h
          refine .cons (fun x hx => ?_) (ih _ h)
          rw [hf] at hx
          exact absurd hx (Nat.not_lt_zero x)
      exact hnone _ _ hempty

/-! ## Limits that are not checked -/

section Runs

variable {img : List (BitVec 8)} {cur i : ℕ} {files : List File}

theorem le_setSlice (img b : List (BitVec 8)) (off : ℕ) : img.length ≤ (setSlice img off b).length := by
  rw [setSlice, length_append, length_append, length_take, length_drop]
  omega

/-- the loop raises no error if the table fits in the image and the numbers fit in 32 bits -/
theorem writeFiles_some (hroom : 512 + 32 * (i + files.length) ≤ img.length) (hsizes : ∀ f ∈ files, f.2.length < 2 ^ 32)
    (hlba : cur + (files.map fun f => padded f.2).sum < 2 ^ 41) : ∃ img', writeFiles img cur i files = some img' := by
  induction files generalizing img cur i with
  | nil => exact ⟨img, rfl⟩
  | cons f files ih =>
    obtain ⟨hf, hsizes⟩ := forall_mem_cons.1 hsizes
    rw [map_cons, sum_cons] at hlba
    rw [length_cons] at hroom
    have h32 := (entry_getD (show (f.1.take 23).length ≤ 24 by rw [length_take]; omega) (leBytes_length f.2.length)
      (leBytes_length (cur / sect))).1
    have hin : entryOff + i * 32 + (packS 24 (f.1.take 23) ++ leBytes f.2.length ++ leBytes (cur / sect)).length ≤
        img.length := by
      rw [h32, entryOff, sect]
      omega
    have hle := le_setSlice (setSlice img (entryOff + i * 32)
      (packS 24 (f.1.take 23) ++ leBytes f.2.length ++ leBytes (cur / sect))) f.2 cur
    rw [setSlice_length hin] at hle
    obtain ⟨img', hrun⟩ := @ih (setSlice (setSlice img (entryOff + i * 32)
      (packS 24 (f.1.take 23) ++ leBytes f.2.length ++ leBytes (cur / sect))) cur f.2) (cur + padded f.2) (i + 1)
      (by omega) hsizes (by omega)
    refine ⟨img', ?_⟩
    rw [writeFiles, packI_some hf, packI_some (show cur / sect < 2 ^ 32 by rw [sect]; omega)]
    simp only [Option.bind_eq_bind, Option.bind_some, packInto, if_pos hin]
    exact hrun

theorem mkuixfs_some (hroom : 512 + 32 * files.length ≤ imgSize) (hsizes : ∀ f ∈ files, f.2.length < 2 ^ 32)
    (hlba : 1536 + (files.map fun f => padded f.2).sum < 2 ^ 41) : ∃ img, mkuixfs files = some img := by
  have hsize : imgSize = 8388608 := rfl
  have h8 : (packS 4 Uixfs.magic ++ leBytes files.length).length = 8 := by
    rw [length_append, leBytes_length]
    rfl
  obtain ⟨blank, hblank, h0⟩ : ∃ blank : List (BitVec 8), replicate imgSize 0 = blank ∧ blank.length = imgSize :=
    ⟨_, rfl, length_replicate⟩
  have hin : 0 + (packS 4 Uixfs.magic ++ leBytes files.length).length ≤ blank.length := by omega
  obtain ⟨img, hrun⟩ :=
    @writeFiles_some (setSlice blank 0 (packS 4 Uixfs.magic ++ leBytes files.length)) dataOff 0 files
    (by rw [setSlice_length hin]; omega) hsizes hlba
  refine ⟨img, ?_⟩
  rw [mkuixfs, packI_some (by omega), hblank]
  simp only [Option.bind_eq_bind, Option.bind_some, packInto, if_pos hin]
  exact hrun

end Runs

/-- **Images that are not well laid out**: 33 files, of which the first has a byte; and a file after one that ends one
byte past 8 MiB. -/
theorem limits_not_checked : (∃ files img, files.length = 33 ∧ mkuixfs files = some img ∧ ¬ WellLaid files img) ∧
    ∃ files img, files.length = 2 ∧ mkuixfs files = some img ∧ ¬ WellLaid files img := by
  have hsize : imgSize = 8388608 := rfl
  constructor
  · obtain ⟨img, hrun⟩ := @mkuixfs_some (([], [1]) :: List.replicate 32 ([], [])) (by decide) (by decide) (by decide)
    refine ⟨_, img, rfl, hrun, fun W => ?_⟩
    rcases regions_clear_iff.1 W.apart with h | h
    · exact absurd h (by decide)
    · exact absurd (h _ List.mem_cons_self) (by decide)
  · obtain ⟨big, hbig⟩ : ∃ big : List (BitVec 8), big.length = 8387073 :=
      ⟨List.replicate 8387073 0, List.length_replicate⟩
    have hpad : padded big = 8387584 := by
      rw [padded, hbig, sect]
    obtain ⟨img, hrun⟩ := @mkuixfs_some [([], big), ([], [1])] (show 512 + 32 * 2 ≤ imgSize by decide) (by
      refine List.forall_mem_cons.2 ⟨?_, List.forall_mem_singleton.2 (by decide)⟩
      change big.length < 2 ^ 32
      omega) (by
      simp only [List.map_cons, List.map_nil, List.sum_cons, List.sum_nil, hpad]
      decide)
    refine ⟨_, img, rfl, hrun, fun W => ?_⟩
    obtain ⟨img0, hlen, hloop⟩ := mkuixfs_loop hrun
    have hends := (fit_iff (show dataOff ≤ img0.length by rw [hlen]; decide)).1 (fit_of_holds (by decide) hloop W.holds)
    have := hends [] ([], big) [([], [1])] rfl (by
      change big.length % sect ≠ 0
      rw [hbig]
      decide) ⟨_, List.mem_singleton_self _, by decide⟩
    simp only [List.nil_append, List.map_singleton, List.sum_singleton, hpad, hlen] at this
    exact absurd this (by decide)

/-- files that read back are well laid out -/
theorem Packable.sized (h : Packable files) : Sized files := by
  refine ⟨.inl h.count, fun pre g post hsplit _ _ => ?_⟩
  have hroom := h.room
  rw [hsplit, ← singleton_append, ← append_assoc, map_append, sum_append] at hroom
  have hsize : imgSize = 8388608 := rfl
  have hdata : dataOff = 1536 := rfl
  omega

/-- a file of two sectors and one of three bytes -/
theorem two_files_well_laid : ∃ img, mkuixfs twoFiles = some img ∧ WellLaid twoFiles img := by
  obtain ⟨img, hrun, -⟩ := mkuixfs_holds twoFiles_packable
  exact ⟨img, hrun, (image_well_laid_iff _ img hrun).2 twoFiles_packable.sized⟩

end Uix.Mkuixfs
