/-
PCI enumeration (`src/drivers/pci.c`). The configuration space is reached through an address latch and a data port; a
register has bits that a write changes and bits that it does not. `probe` enters a function into the table, `pci_scan`
probes bus 0.

- `loc_configAddr`: the address written to the latch selects the register meant.
- `barSize_same`: measuring a BAR leaves the configuration space as it was.
- `probe_holds`, `scanDev_holds`, `pciScan_holds`: the table after a probe, a device and the scan.
- `findLoop_eq`: a search goes through the table in order.
- `finds_iff`: functions are found by their class exactly if all have equal class and subclass codes, since `probe`
  stores the base class in both fields. `storage_missed` is a function that is not found.
-/
import Mathlib
import Uix.Types

namespace Uix

open List Function

namespace Pci

/-! ## Configuration space -/

/-- bus, device, function and register -/
abbrev Loc := BitVec 8 × BitVec 5 × BitVec 3 × BitVec 6

/-- the address latch, the registers, and which of their bits can be written -/
structure Bus where
  latch : BitVec 32
  conf : Loc → BitVec 32
  writable : Loc → BitVec 32

/-- the register that the latch selects -/
def Bus.loc (s : Bus) : Loc :=
  (s.latch.extractLsb' 16 8, s.latch.extractLsb' 11 5, s.latch.extractLsb' 8 3, s.latch.extractLsb' 2 6)

/-- `outl(PCI_ADDR, v)` -/
def Bus.outAddr (s : Bus) (v : BitVec 32) : Bus := { s with latch := v }

/-- `inl(PCI_DATA)` -/
def Bus.inData (s : Bus) : BitVec 32 := if s.latch.getLsbD 31 then s.conf s.loc else 0xFFFFFFFF

/-- a write to a register -/
def Bus.store (s : Bus) (loc : Loc) (v : BitVec 32) : Loc → BitVec 32 :=
  Function.update s.conf loc ((s.conf loc &&& ~~~ s.writable loc) ||| (v &&& s.writable loc))

/-- `outl(PCI_DATA, v)` -/
def Bus.outData (s : Bus) (v : BitVec 32) : Bus :=
  if s.latch.getLsbD 31 then { s with conf := s.store s.loc v } else s

/-- the address of a register -/
def configAddr (bus dev fn off : BitVec 8) : BitVec 32 :=
  (1 <<< 31) ||| (bus.setWidth 32 <<< 16) ||| (dev.setWidth 32 <<< 11) ||| (fn.setWidth 32 <<< 8) |||
    (off &&& 0xFC).setWidth 32

/-- `pci_read32` -/
def pciRead32 (bus dev fn off : BitVec 8) (s : Bus) : BitVec 32 × Bus :=
  let s := s.outAddr (configAddr bus dev fn off)
  (s.inData, s)

/-- `pci_write32` -/
def pciWrite32 (bus dev fn off : BitVec 8) (val : BitVec 32) (s : Bus) : Bus :=
  (s.outAddr (configAddr bus dev fn off)).outData val

/-- `pci_read16` -/
def pciRead16 (bus dev fn off : BitVec 8) (s : Bus) : BitVec 16 × Bus :=
  let (v, s) := pciRead32 bus dev fn (off &&& ~~~ 3) s
  ((v >>> ((off &&& 2) * 8).toNat).setWidth 16, s)

/-- `bar_size` -/
def barSize (bus dev fn bar : BitVec 8) (s : Bus) : U64 × Bus :=
  let off := 0x10 + bar * 4
  let (orig, s) := pciRead32 bus dev fn off s
  let s := pciWrite32 bus dev fn off 0xFFFFFFFF s
  let (sz, s) := pciRead32 bus dev fn off s
  let s := pciWrite32 bus dev fn off orig s
  if orig &&& 1 ≠ 0 then ((~~~ (sz &&& ~~~ 3) + 1).setWidth 64 &&& 0xFFFF, s)
  else ((~~~ (sz &&& ~~~ 0xF) + 1).setWidth 64, s)

/-! ## The table -/

/-- `struct pci_dev` -/
structure PciDev where
  vendor : BitVec 16
  device : BitVec 16
  bus : BitVec 8
  dev : BitVec 8
  fn : BitVec 8
  class_ : BitVec 8
  subclass : BitVec 8
  progIf : BitVec 8
  irq : BitVec 8
  bars : ℕ → U64
  barTypes : ℕ → BitVec 8

/-- the bus, `found` and `found_count` -/
structure Table where
  bus : Bus
  found : ℕ → PciDev
  foundCount : ℕ

/-- the loop over the BARs -/
def barLoop (bus dev fn : BitVec 8) (b : ℕ) (d : PciDev) (s : Bus) : PciDev × Bus :=
  if b < 6 then
    let (bar, s) := pciRead32 bus dev fn (0x10 + BitVec.ofNat 8 b * 4) s
    let d := { d with barTypes := Function.update d.barTypes b ((bar &&& 1).setWidth 8) }
    if bar &&& 1 ≠ 0 then
      barLoop bus dev fn (b + 1) { d with bars := Function.update d.bars b ((bar &&& ~~~ 3).setWidth 64) } s
    else if bar &&& 6 = 4 ∧ b < 5 then
      -- a 64-bit BAR: the next word is its high half, and its own slot stays as it was
      let (hi, s) := pciRead32 bus dev fn (0x10 + BitVec.ofNat 8 (b + 1) * 4) s
      let bar64 := (hi.setWidth 64 <<< 32) ||| (bar &&& ~~~ 0xF).setWidth 64
      barLoop bus dev fn (b + 2) { d with bars := Function.update d.bars b bar64 } s
    else barLoop bus dev fn (b + 1) { d with bars := Function.update d.bars b ((bar &&& ~~~ 0xF).setWidth 64) } s
  else (d, s)
termination_by 6 - b

/-- `probe`; the line it prints is left out, but not the `bar_size` among its arguments -/
def probe (bus dev fn : BitVec 8) (t : Table) : Table :=
  let (vendor, s) := pciRead16 bus dev fn 0 t.bus
  if vendor = 0xFFFF then { t with bus := s }
  else if 32 ≤ t.foundCount then { t with bus := s }
  else
    let (device, s) := pciRead16 bus dev fn 2 s
    let (cl, s) := pciRead32 bus dev fn 8 s
    let (irq, s) := pciRead16 bus dev fn 0x3C s
    let d := { t.found t.foundCount with
      vendor := vendor
      device := device
      bus := bus
      dev := dev
      fn := fn
      progIf := ((cl >>> 16) &&& 0xFF).setWidth 8
      subclass := ((cl >>> 24) &&& 0xFF).setWidth 8
      class_ := ((cl >>> 16) >>> 8).setWidth 8
      irq := (irq &&& 0xFF).setWidth 8 }
    let (d, s) := barLoop bus dev fn 0 d s
    let (_, s) := barSize bus dev fn 0 s
    { bus := s, found := Function.update t.found t.foundCount d, foundCount := t.foundCount + 1 }

/-- one device of the scan -/
def scanDev (dev : BitVec 8) (t : Table) : Table :=
  let (vendor, s) := pciRead16 0 dev 0 0 t.bus
  let t := { t with bus := s }
  if vendor = 0xFFFF then t
  else
    let t := probe 0 dev 0 t
    let (hdr, s) := pciRead16 0 dev 0 14 t.bus
    let t := { t with bus := s }
    if (hdr &&& 0xFF).setWidth 8 &&& 0x80#8 ≠ 0 then [1, 2, 3, 4, 5, 6, 7].foldl (fun t fn => probe 0 dev fn t) t else t

/-- the devices of a bus -/
def devices : List (BitVec 8) := (List.range 32).map (BitVec.ofNat 8)

/-- `pci_scan`; it returns `foundCount` -/
def pciScan (t : Table) : Table := devices.foldl (fun t dev => scanDev dev t) { t with foundCount := 0 }

/-- the loop of a search: `out`, or `none` for -1 -/
def findLoop (p : PciDev → Bool) (found : ℕ → PciDev) : ℕ → ℕ → Option PciDev
  | 0, _ => none
  | k + 1, i => if p (found i) then some (found i) else findLoop p found k (i + 1)

/-- `pci_find_by_class` -/
def pciFindByClass (class_ subclass : BitVec 8) (t : Table) : Option PciDev :=
  findLoop (fun d => d.class_ == class_ && d.subclass == subclass) t.found t.foundCount 0

/-- `pci_find_by_id` -/
def pciFindById (vendor device : BitVec 16) (t : Table) : Option PciDev :=
  findLoop (fun d => d.vendor == vendor && d.device == device) t.found t.foundCount 0

/-! ## Registers -/

/-- a register of a function -/
def reg (conf : Loc → BitVec 32) (bus dev fn : BitVec 8) (k : BitVec 6) : BitVec 32 :=
  conf (bus, dev.setWidth 5, fn.setWidth 3, k)

section Registers

variable {bus dev fn off : BitVec 8} {s : Bus}

/-- **The address** selects the register. -/
theorem loc_configAddr (hd : dev < 32) (hf : fn < 8) : (configAddr bus dev fn off).getLsbD 31 = true ∧
    (s.outAddr (configAddr bus dev fn off)).loc = (bus, dev.setWidth 5, fn.setWidth 3, off.extractLsb' 2 6) := by
  have hdev : ∀ dev : BitVec 8, dev < 32 → dev[5] = false ∧ dev[6] = false ∧ dev[7] = false := by decide
  have hfn : ∀ fn : BitVec 8, fn < 8 →
      fn[3] = false ∧ fn[4] = false ∧ fn[5] = false ∧ fn[6] = false ∧ fn[7] = false := by decide
  obtain ⟨d5, d6, d7⟩ := hdev dev hd
  obtain ⟨f3, f4, f5, f6, f7⟩ := hfn fn hf
  refine ⟨by simp [configAddr], ?_⟩
  simp only [Bus.loc, Bus.outAddr, Prod.mk.injEq]
  refine ⟨?_, ?_, ?_, ?_⟩
  all_goals
    -- no field reaches into another
    apply BitVec.eq_of_getLsbD_eq
    intro i hi
    simp only [configAddr, BitVec.getLsbD_extractLsb', hi, decide_true, Bool.true_and, BitVec.getLsbD_or,
      BitVec.getLsbD_shiftLeft, BitVec.getLsbD_setWidth, BitVec.getLsbD_and]
    interval_cases i <;> simp [d5, d6, d7, f3, f4, f5, f6, f7]

/-- an access moves the latch only -/
structure Same (s t : Bus) : Prop where
  conf : t.conf = s.conf
  writable : t.writable = s.writable

theorem Same.trans {s t u : Bus} (h : Same s t) (h' : Same t u) : Same s u :=
  ⟨h'.conf.trans h.conf, h'.writable.trans h.writable⟩

theorem pciRead32_same (bus dev fn off : BitVec 8) (s : Bus) : Same s (pciRead32 bus dev fn off s).2 := ⟨rfl, rfl⟩

theorem shift_setWidth (x : BitVec 32) (k n : ℕ) : (x >>> k).setWidth n = x.extractLsb' k n := by
  apply BitVec.eq_of_getLsbD_eq
  intro i hi
  simp only [BitVec.getLsbD_setWidth, BitVec.getLsbD_ushiftRight, BitVec.getLsbD_extractLsb']

theorem pciRead32_val (hd : dev < 32) (hf : fn < 8) :
    (pciRead32 bus dev fn off s).1 = reg s.conf bus dev fn (off.extractLsb' 2 6) := by
  obtain ⟨hen, hloc⟩ := @loc_configAddr bus dev fn off s hd hf
  rw [pciRead32]
  simp only [Bus.inData, hloc]
  exact if_pos hen

/-- `pci_read16`: half of a register -/
theorem pciRead16_val (hd : dev < 32) (hf : fn < 8) : (pciRead16 bus dev fn off s).1 =
    (reg s.conf bus dev fn ((off &&& ~~~ 3).extractLsb' 2 6)).extractLsb' ((off &&& 2) * 8).toNat 16 := by
  rw [pciRead16]
  simp only [pciRead32_val hd hf, shift_setWidth]

theorem pciWrite32_eq (hd : dev < 32) (hf : fn < 8) (val : BitVec 32) (s : Bus) : pciWrite32 bus dev fn off val s =
    ⟨configAddr bus dev fn off, s.store (bus, dev.setWidth 5, fn.setWidth 3, off.extractLsb' 2 6) val, s.writable⟩ := by
  obtain ⟨hen, hloc⟩ := @loc_configAddr bus dev fn off s hd hf
  have hlatch : (s.outAddr (configAddr bus dev fn off)).latch.getLsbD 31 = true := hen
  rw [pciWrite32, Bus.outData, if_pos hlatch, hloc]
  rfl

/-- a register written back -/
theorem store_back (s : Bus) (latch v : BitVec 32) (loc : Loc) :
    Bus.store ⟨latch, s.store loc v, s.writable⟩ loc (s.conf loc) = s.conf := by
  have hback (x y w : BitVec 32) : (((x &&& ~~~ w) ||| (y &&& w)) &&& ~~~ w) ||| (x &&& w) = x := by
    apply BitVec.eq_of_getLsbD_eq
    intro i hi
    simp only [BitVec.getLsbD_or, BitVec.getLsbD_and, BitVec.getLsbD_not, hi, decide_true, Bool.true_and]
    cases x.getLsbD i <;> cases y.getLsbD i <;> cases w.getLsbD i <;> rfl
  simp only [Bus.store, update_self, hback, update_idem, update_eq_self]

/-- **Measuring a BAR** leaves the configuration space as it was. -/
theorem barSize_same (hd : dev < 32) (hf : fn < 8) (bar : BitVec 8) (s : Bus) :
    Same s (barSize bus dev fn bar s).2 := by
  have horig : (pciRead32 bus dev fn (0x10 + bar * 4) s).1 =
      s.conf (bus, dev.setWidth 5, fn.setWidth 3, (0x10 + bar * 4).extractLsb' 2 6) := pciRead32_val hd hf
  have hbus : (barSize bus dev fn bar s).2 = pciWrite32 bus dev fn (0x10 + bar * 4)
      (pciRead32 bus dev fn (0x10 + bar * 4) s).1
      (pciRead32 bus dev fn (0x10 + bar * 4)
        (pciWrite32 bus dev fn (0x10 + bar * 4) 0xFFFFFFFF (pciRead32 bus dev fn (0x10 + bar * 4) s).2)).2 := by
    simp only [barSize]
    split_ifs <;> rfl
  rw [hbus, horig, pciWrite32_eq hd hf, pciWrite32_eq hd hf]
  exact ⟨store_back s _ _ _, rfl⟩

end Registers

/-! ## Probing -/

/-- a function of bus 0 -/
abbrev Func := BitVec 8 × BitVec 8

section Probe

/-- the vendor id of a function -/
def vendorId (conf : Loc → BitVec 32) (f : Func) : BitVec 16 := (reg conf 0 f.1 f.2 0).extractLsb' 0 16

/-- the device id of a function -/
def deviceId (conf : Loc → BitVec 32) (f : Func) : BitVec 16 := (reg conf 0 f.1 f.2 0).extractLsb' 16 16

/-- bits 31..24 of the class register -/
def baseClass (conf : Loc → BitVec 32) (f : Func) : BitVec 8 := (reg conf 0 f.1 f.2 2).extractLsb' 24 8

/-- bits 23..16 of the class register -/
def subClass (conf : Loc → BitVec 32) (f : Func) : BitVec 8 := (reg conf 0 f.1 f.2 2).extractLsb' 16 8

/-- the multifunction bit of the header type -/
def multifunction (conf : Loc → BitVec 32) (dev : BitVec 8) : Bool := (reg conf 0 dev 0 3).getLsbD 23

def present (conf : Loc → BitVec 32) (f : Func) : Bool := vendorId conf f != 0xFFFF

/-- the functions present on bus 0, by device and function number -/
def functions (conf : Loc → BitVec 32) : List Func :=
  (devices.flatMap fun dev => [0, 1, 2, 3, 4, 5, 6, 7].map fun fn => (dev, fn)).filter (present conf)

/-- the entry is that of the function -/
structure Describes (conf : Loc → BitVec 32) (f : Func) (d : PciDev) : Prop where
  vendor : d.vendor = vendorId conf f
  device : d.device = deviceId conf f
  bus : d.bus = 0
  place : (d.dev, d.fn) = f

/-- what `probe` stores: the base class stands in both fields -/
structure Entry (conf : Loc → BitVec 32) (f : Func) (d : PciDev) : Prop extends Describes conf f d where
  class_ : d.class_ = baseClass conf f
  subclass : d.subclass = baseClass conf f

/-- the entries in use -/
def Table.entries (t : Table) : List PciDev := (List.range t.foundCount).map t.found

/-- the table after some functions: the first 32 of them are in it -/
structure Holds (conf : Loc → BitVec 32) (t : Table) (l : List Func) : Prop where
  space : t.bus.conf = conf
  entries : List.Forall₂ (Entry conf) (l.take 32) t.entries

variable {conf : Loc → BitVec 32} {t : Table} {l : List Func} {bus dev fn : BitVec 8}

/-- the BARs are read, and the other fields stay -/
theorem barLoop_keeps (bus dev fn : BitVec 8) (b : ℕ) (d : PciDev) (s : Bus) :
    Same s (barLoop bus dev fn b d s).2 ∧ ∃ bars barTypes, (barLoop bus dev fn b d s).1 =
      { d with bars := bars, barTypes := barTypes } := by
  have hstep {off : BitVec 8} {bar : BitVec 32} {s s' : Bus} (h : pciRead32 bus dev fn off s = (bar, s')) :
      Same s s' := by
    have hsame := pciRead32_same bus dev fn off s
    rw [h] at hsame
    exact hsame
  fun_induction barLoop bus dev fn b d s with
  | case1 b d s hb bar s' hread d' hio ih => exact ⟨(hstep hread).trans ih.1, ih.2⟩
  | case2 b d s hb bar s' hread d' hmem hwide hi s'' hread' bar64 ih =>
    exact ⟨((hstep hread).trans (hstep hread')).trans ih.1, ih.2⟩
  | case3 b d s hb bar s' hread d' hmem hnarrow ih => exact ⟨(hstep hread).trans ih.1, ih.2⟩
  | case4 b d s hb => exact ⟨⟨rfl, rfl⟩, d.bars, d.barTypes, rfl⟩

theorem class_bits (x : BitVec 32) : ((x >>> 16) >>> 8).setWidth 8 = x.extractLsb' 24 8 := by
  rw [← BitVec.shiftRight_add, shift_setWidth]

theorem subclass_bits (x : BitVec 32) : ((x >>> 24) &&& 0xFF).setWidth 8 = x.extractLsb' 24 8 := by
  rw [← shift_setWidth]
  apply BitVec.eq_of_getLsbD_eq
  intro i hi
  simp only [BitVec.getLsbD_setWidth, BitVec.getLsbD_and]
  interval_cases i <;> simp

/-- `probe` of a function that is present, with room in the table -/
theorem probe_entry (hd : dev < 32) (hf : fn < 8) (hpresent : present t.bus.conf (dev, fn))
    (hroom : t.foundCount < 32) : ∃ s d, Same t.bus s ∧ Entry t.bus.conf (dev, fn) d ∧
      probe 0 dev fn t = ⟨s, update t.found t.foundCount d, t.foundCount + 1⟩ := by
  have hvendor : (pciRead16 0 dev fn 0 t.bus).1 = vendorId t.bus.conf (dev, fn) := pciRead16_val hd hf
  have hne : ¬ (pciRead16 0 dev fn 0 t.bus).1 = 0xFFFF := by
    rw [hvendor]
    exact bne_iff_ne.1 hpresent
  simp only [probe, if_neg hne, if_neg (not_le.2 hroom)]
  refine ⟨_, _, ?_, ?_, rfl⟩
  · refine Same.trans ?_ (barSize_same hd hf 0 _)
    exact ⟨(barLoop_keeps 0 dev fn 0 _ _).1.conf.trans rfl, (barLoop_keeps 0 dev fn 0 _ _).1.writable.trans rfl⟩
  · -- the fields other than the BARs are those stored before the loop
    obtain ⟨-, bars, barTypes, hkept⟩ := barLoop_keeps 0 dev fn 0 _ _
    rw [hkept]
    have hclass : (pciRead32 0 dev fn 8 t.bus).1 = reg t.bus.conf 0 dev fn 2 := pciRead32_val hd hf
    refine ⟨⟨hvendor, pciRead16_val hd hf, rfl, rfl⟩, ?_, ?_⟩
    · rw [baseClass, ← hclass]
      exact class_bits _
    · rw [baseClass, ← hclass]
      exact subclass_bits _

theorem Table.entries_push (t : Table) (s : Bus) (d : PciDev) :
    Table.entries ⟨s, update t.found t.foundCount d, t.foundCount + 1⟩ = t.entries ++ [d] := by
  simp only [Table.entries, range_succ, map_append, map_singleton, update_self]
  congr 1
  apply map_congr_left
  intro i hi
  rw [update_of_ne (mem_range.1 hi).ne]

theorem Holds.count (h : Holds conf t l) : t.foundCount = min 32 l.length := by
  have hlen := h.entries.length_eq
  rw [Table.entries, length_map, length_range, length_take] at hlen
  exact hlen.symm

/-- **A probe** adds the function if it is present. -/
theorem probe_holds (hd : dev < 32) (hf : fn < 8) (h : Holds conf t l) :
    Holds conf (probe 0 dev fn t) (l ++ [(dev, fn)].filter (present conf)) := by
  obtain ⟨rfl, hentries⟩ := h
  have hcount := Holds.count ⟨rfl, hentries⟩
  have hvendor : (pciRead16 0 dev fn 0 t.bus).1 = vendorId t.bus.conf (dev, fn) := pciRead16_val hd hf
  cases hpresent : present t.bus.conf (dev, fn) with
  | false =>
    have heq : (pciRead16 0 dev fn 0 t.bus).1 = 0xFFFF := by
      rw [hvendor]
      exact not_not.1 (bne_iff_ne.not.1 (by rw [← present, hpresent]; exact Bool.false_ne_true))
    rw [filter_cons_of_neg (by rw [hpresent]; exact Bool.false_ne_true), filter_nil, append_nil]
    simp only [probe, if_pos heq]
    exact ⟨rfl, hentries⟩
  | true =>
    rw [filter_cons_of_pos hpresent, filter_nil]
    by_cases hroom : t.foundCount < 32
    · obtain ⟨s, d, hsame, hentry, heq⟩ := probe_entry hd hf hpresent hroom
      have hlen : l.length < 32 := by omega
      rw [heq]
      refine ⟨hsame.conf, ?_⟩
      rw [Table.entries_push, take_of_length_le (by rw [length_append]; exact hlen)]
      rw [take_of_length_le hlen.le] at hentries
      exact rel_append hentries (.cons hentry .nil)
    · -- a full table stays as it is
      have hne : ¬ (pciRead16 0 dev fn 0 t.bus).1 = 0xFFFF := by
        rw [hvendor]
        exact bne_iff_ne.1 hpresent
      simp only [probe, if_neg hne, if_pos (not_lt.1 hroom)]
      refine ⟨rfl, ?_⟩
      rw [take_append_of_le_length (by omega)]
      exact hentries

/-- the functions of one device -/
theorem probes_holds (hd : dev < 32) (fns : List (BitVec 8)) (hf : ∀ fn ∈ fns, fn < 8) (h : Holds conf t l) :
    Holds conf (fns.foldl (fun t fn => probe 0 dev fn t) t)
    (l ++ (fns.map fun fn => (dev, fn)).filter (present conf)) := by
  induction fns generalizing t l with
  | nil =>
    rw [map_nil, filter_nil, append_nil]
    exact h
  | cons fn fns ih =>
    have hone := probe_holds hd (hf fn mem_cons_self) h
    have hrest := ih (fun fn hfn => hf fn (mem_cons_of_mem _ hfn)) hone
    rw [append_assoc, ← filter_append] at hrest
    exact hrest

/-- function 0 is there, and says so, where a device has other functions -/
def Announced (conf : Loc → BitVec 32) (dev : BitVec 8) : Prop :=
  ∀ fn ∈ [1, 2, 3, 4, 5, 6, 7], present conf (dev, fn) → present conf (dev, 0) ∧ multifunction conf dev

theorem header_bit (x : BitVec 32) :
    (x.extractLsb' 16 16 &&& 0xFF).setWidth 8 &&& 0x80#8 ≠ 0 ↔ x.getLsbD 23 = true := by
  have hbit : ∀ y : BitVec 8, (y &&& 0x80#8 ≠ 0) ↔ y.getLsbD 7 = true := by decide
  rw [hbit]
  simp

/-- **One device of the scan.** -/
theorem scanDev_holds (hd : dev < 32) (hann : Announced conf dev) (h : Holds conf t l) :
    Holds conf (scanDev dev t)
      (l ++ ([0, 1, 2, 3, 4, 5, 6, 7].map fun fn => (dev, fn)).filter (present conf)) := by
  have hvendor : (pciRead16 0 dev 0 0 t.bus).1 = vendorId conf (dev, 0) := by
    rw [← h.space]
    exact pciRead16_val hd (by decide)
  have hmoved : Holds conf { t with bus := (pciRead16 0 dev 0 0 t.bus).2 } l := ⟨h.space, h.entries⟩
  have hsplit : ([0, 1, 2, 3, 4, 5, 6, 7].map fun fn => (dev, fn)).filter (present conf) =
      [(dev, 0)].filter (present conf) ++ ([1, 2, 3, 4, 5, 6, 7].map fun fn => (dev, fn)).filter (present conf) := by
    rw [← filter_append]
    rfl
  -- no function but 0, unless function 0 says so
  have hnone : ¬ (present conf (dev, 0) ∧ multifunction conf dev) →
      ([1, 2, 3, 4, 5, 6, 7].map fun fn => (dev, fn)).filter (present conf) = [] := by
    intro hno
    rw [filter_eq_nil_iff]
    intro f hf hpresent
    obtain ⟨fn, hfn, rfl⟩ := mem_map.1 hf
    exact hno (hann fn hfn hpresent)
  rw [hsplit]
  by_cases hzero : vendorId conf (dev, 0) = 0xFFFF
  · have habsent : ¬ present conf (dev, 0) = true := fun hc => (bne_iff_ne.1 hc) hzero
    rw [hnone (fun hc => habsent hc.1), filter_cons_of_neg habsent, filter_nil, append_nil,
      append_nil]
    simp only [scanDev, hvendor, if_pos hzero]
    exact hmoved
  · have hfirst := @probe_holds conf _ l dev 0 hd (by decide) hmoved
    have hheader : (pciRead16 0 dev 0 14 (probe 0 dev 0 { t with bus := (pciRead16 0 dev 0 0 t.bus).2 }).bus).1 =
        (reg conf 0 dev 0 3).extractLsb' 16 16 := by
      rw [pciRead16_val hd (by decide), hfirst.space]
      rfl
    simp only [scanDev, hvendor, if_neg hzero, hheader, header_bit]
    rw [← append_assoc]
    by_cases hmulti : (reg conf 0 dev 0 3).getLsbD 23 = true
    · rw [if_pos hmulti]
      exact probes_holds hd _ (by decide) ⟨hfirst.space, hfirst.entries⟩
    · rw [if_neg hmulti, hnone (fun hc => hmulti hc.2), append_nil]
      exact ⟨hfirst.space, hfirst.entries⟩

/-- some devices of the scan -/
theorem scanDevs_holds (devs : List (BitVec 8)) (hall : ∀ dev ∈ devs, dev < 32 ∧ Announced conf dev)
    (h : Holds conf t l) : Holds conf (devs.foldl (fun t dev => scanDev dev t) t)
      (l ++ (devs.flatMap fun dev => [0, 1, 2, 3, 4, 5, 6, 7].map fun fn => (dev, fn)).filter (present conf)) := by
  induction devs generalizing t l with
  | nil =>
    rw [flatMap_nil, filter_nil, append_nil]
    exact h
  | cons dev devs ih =>
    have hdev := hall dev mem_cons_self
    rw [flatMap_cons, filter_append, ← append_assoc]
    exact ih (fun d hd => hall d (mem_cons_of_mem _ hd)) (scanDev_holds hdev.1 hdev.2 h)

/-- **The scan**: the table holds the functions of bus 0 in order. -/
theorem pciScan_holds (hann : ∀ dev ∈ devices, Announced conf dev) (hspace : t.bus.conf = conf) :
    Holds conf (pciScan t) (functions conf) := by
  have hlow : ∀ dev ∈ devices, dev < 32 := by decide
  have hempty : Holds conf { t with foundCount := 0 } [] := ⟨hspace, .nil⟩
  exact scanDevs_holds devices (fun dev hdev => ⟨hlow dev hdev, hann dev hdev⟩) hempty

end Probe

/-! ## Searching -/

section Search

variable {conf : Loc → BitVec 32} {t : Table} {l : List Func}

/-- a search goes through the table in order -/
theorem findLoop_eq (p : PciDev → Bool) (found : ℕ → PciDev) (k i : ℕ) :
    findLoop p found k i = ((range' i k).map found).find? p := by
  induction k generalizing i with
  | zero => rfl
  | succ k ih =>
    rw [findLoop, range'_succ, map_cons]
    cases hp : p (found i) with
    | true => rw [if_pos rfl, find?_cons_of_pos hp]
    | false =>
      rw [if_neg Bool.false_ne_true, find?_cons_of_neg (by rw [hp]; exact Bool.false_ne_true)]
      exact ih (i + 1)

theorem findLoop_entries (p : PciDev → Bool) (t : Table) : findLoop p t.found t.foundCount 0 = t.entries.find? p := by
  rw [findLoop_eq, Table.entries, range_eq_range']

/-- the first entry that passes is that of the first function that passes -/
theorem find_place {ds : List PciDev} {p : PciDev → Bool} {q : Func → Bool} (h : List.Forall₂ (Entry conf) l ds)
    (hpq : ∀ f d, Entry conf f d → p d = q f) : (ds.find? p).map (fun d => (d.dev, d.fn)) = l.find? q := by
  induction h with
  | nil => rfl
  | @cons f d l ds hentry _ ih =>
    cases hq : q f with
    | true =>
      rw [find?_cons_of_pos hq, find?_cons_of_pos ((hpq f d hentry).trans hq), Option.map_some, hentry.place]
    | false =>
      have hqf : ¬ q f = true := by rw [hq]; exact Bool.false_ne_true
      have hp : ¬ p d = true := by rw [hpq f d hentry]; exact hqf
      rw [find?_cons_of_neg hqf, find?_cons_of_neg hp]
      exact ih

/-- what the table and the searches should give -/
structure Finds (conf : Loc → BitVec 32) (t : Table) : Prop where
  table : List.Forall₂ (Describes conf) (functions conf) t.entries
  byClass : ∀ c s, (pciFindByClass c s t).map (fun d => (d.dev, d.fn)) =
    (functions conf).find? fun f => baseClass conf f == c && subClass conf f == s
  byId : ∀ v i, (pciFindById v i t).map (fun d => (d.dev, d.fn)) =
    (functions conf).find? fun f => vendorId conf f == v && deviceId conf f == i

/-- a search by class compares the base class twice -/
theorem byClass_place (h : List.Forall₂ (Entry conf) l t.entries) (c s : BitVec 8) :
    (pciFindByClass c s t).map (fun d => (d.dev, d.fn)) =
      l.find? fun f => baseClass conf f == c && baseClass conf f == s := by
  rw [pciFindByClass, findLoop_entries]
  refine find_place h fun f d hentry => ?_
  rw [hentry.class_, hentry.subclass]

/-- **When functions are found by their class.** -/
theorem finds_iff (t : Table) (hann : ∀ dev ∈ devices, Announced t.bus.conf dev)
    (hmax : (functions t.bus.conf).length ≤ 32) :
    Finds t.bus.conf (pciScan t) ↔ ∀ f ∈ functions t.bus.conf, subClass t.bus.conf f = baseClass t.bus.conf f := by
  have hscan := (pciScan_holds hann rfl).entries
  rw [List.take_of_length_le hmax] at hscan
  constructor
  · intro hfinds f hf
    have hclass := hfinds.byClass (baseClass t.bus.conf f) (subClass t.bus.conf f)
    rw [byClass_place hscan] at hclass
    -- some function has these codes, so one is found, and its base class is both
    have hsome : ((functions t.bus.conf).find? fun g => baseClass t.bus.conf g == baseClass t.bus.conf f &&
        subClass t.bus.conf g == subClass t.bus.conf f).isSome := by
      rw [List.find?_isSome]
      exact ⟨f, hf, by simp⟩
    rw [← hclass, List.find?_isSome] at hsome
    obtain ⟨g, -, hg⟩ := hsome
    rw [Bool.and_eq_true, beq_iff_eq, beq_iff_eq] at hg
    rw [← hg.1, ← hg.2]
  · intro hcodes
    refine ⟨hscan.imp fun f d hentry => hentry.toDescribes, fun c s => ?_, fun v i => ?_⟩
    · rw [byClass_place hscan]
      apply List.find?_congr
      intro f hf
      rw [hcodes f hf]
    · rw [pciFindById, findLoop_entries]
      refine find_place hscan fun f d hentry => ?_
      rw [hentry.vendor, hentry.device]

/-- one function on bus 0, with this class register -/
def single (cl : BitVec 32) : Table :=
  { bus :=
      { latch := 0
        conf := fun loc =>
          if loc.1 = 0 ∧ loc.2.1 = 0 ∧ loc.2.2.1 = 0 then
            if loc.2.2.2 = 0 then 0x10011AF4 else if loc.2.2.2 = 2 then cl else 0
          else 0xFFFFFFFF
        writable := fun _ => 0 }
    found := fun _ => ⟨0, 0, 0, 0, 0, 0, 0, 0, 0, fun _ => 0, fun _ => 0⟩
    foundCount := 0 }

theorem functions_single (cl : BitVec 32) : functions (single cl).bus.conf = [(0, 0)] := by
  have hpresent : ∀ f, present (single cl).bus.conf f = present (single 0).bus.conf f := fun f => by
    simp [present, vendorId, reg, single]
  have hzero : functions (single 0).bus.conf = [(0, 0)] := by decide +kernel
  rw [functions, filter_congr fun f _ => hpresent f]
  exact hzero

theorem announced_single (cl : BitVec 32) : ∀ dev ∈ devices, Announced (single cl).bus.conf dev := by
  intro dev hdev fn hfn hpresent
  have hmem : (dev, fn) ∈ functions (single cl).bus.conf :=
    mem_filter.2 ⟨mem_flatMap.2 ⟨dev, hdev, mem_map.2 ⟨fn, mem_cons_of_mem _ hfn, rfl⟩⟩, hpresent⟩
  rw [functions_single, mem_singleton, Prod.mk.injEq] at hmem
  rw [hmem.2] at hfn
  exact absurd hfn (by decide)

/-- **A storage controller** (class 1, subclass 0) is not found. -/
theorem storage_missed : functions (single 0x01000000).bus.conf = [(0, 0)] ∧
    baseClass (single 0x01000000).bus.conf (0, 0) = 1 ∧ subClass (single 0x01000000).bus.conf (0, 0) = 0 ∧
    pciFindByClass 1 0 (pciScan (single 0x01000000)) = none ∧
    ¬ Finds (single 0x01000000).bus.conf (pciScan (single 0x01000000)) := by
  have hscan := (@pciScan_holds _ (single 0x01000000) (announced_single _) rfl).entries
  rw [functions_single, List.take_of_length_le (by decide)] at hscan
  have hnone : pciFindByClass 1 0 (pciScan (single 0x01000000)) = none := by
    rw [← Option.map_eq_none_iff, byClass_place hscan]
    decide
  refine ⟨functions_single _, by decide, by decide, hnone, fun hfinds => ?_⟩
  have hclass := hfinds.byClass 1 0
  rw [hnone, functions_single] at hclass
  exact absurd hclass (by decide)

/-- an IDE controller (class 1, subclass 1) is found -/
theorem ide_found : Finds (single 0x01010000).bus.conf (pciScan (single 0x01010000)) := by
  refine (finds_iff (single 0x01010000) (announced_single _) ?_).2 ?_
  · rw [functions_single]
    decide
  · rw [functions_single]
    exact List.forall_mem_singleton.2 (by decide)

end Search

end Pci

end Uix
