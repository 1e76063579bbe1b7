/-
The driver of the virtio block device and the device (`src/drivers/virtio_blk.c`), each of them one memory access at a
time.

Driver and device share the pages of the ring: the request header, the status byte, three descriptors, a sector of data
and the two indices. There is one of each, for all requests. The device takes entries in order, each of them once: it
reads the header when it takes the entry, moves the sector byte by byte, writes the status and adds one to the used
index. It may do so at any time, after the driver has given up too.

- `drive`; `fetch`, `move`, `finish`, `complete`: one access of the driver, of the device.
- `drive_left`, `acts_return`: `do_request` comes to its end, whatever the device does.
-/
import Uix.Types
import Uix.Lib.Machine

namespace Uix.Virtio

open List

/-- 512 bytes -/
abbrev Sector := ℕ → BitVec 8

abbrev Disk := U64 → Sector

def sectorSize : ℕ := 512

/-! ## Shared memory -/

/-- `struct vring_desc` -/
structure VringDesc where
  addr : PAddr
  len : BitVec 32
  flags : BitVec 16
  next : BitVec 16
  deriving DecidableEq, Repr

/-- what `virtio_blk_init` set up -/
structure Config where
  ringPa : PAddr
  qsize : ℕ

def Config.bufPa (cfg : Config) : PAddr := cfg.ringPa + 0x3000#64

/-- `ring_pa + hdr_off` -/
def Config.hdrPa (cfg : Config) : PAddr := cfg.ringPa + 0x3400#64

/-- `ring_pa + st_off` -/
def Config.stPa (cfg : Config) : PAddr := cfg.ringPa + 0x34FF#64

/-- the pages that driver and device share -/
structure Dma where
  type : BitVec 32
  sector : U64
  st : BitVec 8
  desc : ℕ → VringDesc
  buf : Sector
  availRing : ℕ → BitVec 16
  availIdx : BitVec 16
  usedIdx : BitVec 16

/-- a store to the header, the status byte or a descriptor -/
inductive Store where
  | type (v : BitVec 32)
  | sector (v : U64)
  | st (v : BitVec 8)
  | addr (i : ℕ) (v : PAddr)
  | len (i : ℕ) (v : BitVec 32)
  | flags (i : ℕ) (v : BitVec 16)
  | next (i : ℕ) (v : BitVec 16)
  deriving DecidableEq, Repr

namespace Dma

def setDesc (m : Dma) (i : ℕ) (f : VringDesc → VringDesc) : Dma :=
  { m with desc := Function.update m.desc i (f (m.desc i)) }

def put (m : Dma) : Store → Dma
  | .type v => { m with type := v }
  | .sector v => { m with sector := v }
  | .st v => { m with st := v }
  | .addr i v => m.setDesc i fun d => { d with addr := v }
  | .len i v => m.setDesc i fun d => { d with len := v }
  | .flags i v => m.setDesc i fun d => { d with flags := v }
  | .next i v => m.setDesc i fun d => { d with next := v }

end Dma

/-- `VRING_DESC_F_NEXT` -/
def descNext : BitVec 16 := 1#16

/-- `VRING_DESC_F_WRITE` -/
def descWrite : BitVec 16 := 2#16

/-! ## The driver -/

/-- the stores of `do_request`, up to the copy of the data -/
def prepare (cfg : Config) (type : BitVec 32) (sector : U64) : List Store :=
  [.type type, .sector sector, .st 0xFF#8,
    .addr 0 cfg.hdrPa, .len 0 16#32, .flags 0 descNext, .next 0 1#16,
    .addr 1 cfg.bufPa, .len 1 512#32, .flags 1 (descNext ||| if type = 0#32 then descWrite else 0#16), .next 1 2#16,
    .addr 2 cfg.stPa, .len 2 1#32, .flags 2 descWrite, .next 2 0#16]

/-- where the driver is in `do_request`, with its local variables; `idle` is before the first request -/
inductive Pc where
  | idle
  | store (rest : List Store)
  | copyIn (i : ℕ)
  | loadAvail
  | storeRing (idx : BitVec 16)
  | storeAvail (idx : BitVec 16)
  | notify
  | loadLast
  | poll (last : BitVec 16) (spins : ℕ)
  | isr
  | copyOut (i : ℕ)
  | loadStatus
  | ret (r : ℤ)
  deriving DecidableEq, Repr

/-- the driver in a request; `data` is the buffer of the caller -/
structure Driver where
  type : BitVec 32
  sector : U64
  data : Sector
  pc : Pc

/-! ## The device -/

/-- an entry the device works on: what it read, how many bytes it has moved, the status it wrote -/
structure Job where
  type : BitVec 32
  sector : U64
  writable : Bool
  moved : ℕ
  status : Option (BitVec 8)
  deriving DecidableEq, Repr

/-- `taken` counts the entries that were taken -/
structure Device where
  disk : Disk
  taken : ℕ
  job : Option Job

/-- both of them; `sent` counts the entries made available, `served n` is the disk as entry `n` was taken -/
structure Blk where
  dma : Dma
  driver : Driver
  device : Device
  sent : ℕ
  served : List Disk

/-- the chain that starts at `head`, if it is a header, a sector and a status byte: may the device write to the
sector? -/
def Dma.chain (cfg : Config) (m : Dma) (head : ℕ) : Option Bool :=
  let h := m.desc head
  let b := m.desc h.next.toNat
  let s := m.desc b.next.toNat
  if h.addr = cfg.hdrPa ∧ h.len = 16#32 ∧ h.flags &&& descNext = descNext ∧ b.addr = cfg.bufPa ∧ b.len = 512#32 ∧
      b.flags &&& descNext = descNext ∧ s.addr = cfg.stPa ∧ s.len = 1#32 ∧ s.flags = descWrite then
    some (b.flags &&& descWrite = descWrite)
  else none

/-- `spins > 200000000ULL` -/
def spinLimit : ℕ := 200000000

/-- an access of the driver, or one of the device -/
inductive Act where
  | drive
  | fetch
  | move
  | finish (v : BitVec 8)
  | complete
  deriving DecidableEq, Repr

namespace Blk

variable (cfg : Config)

def goto (s : Blk) (pc : Pc) : Blk := { s with driver := { s.driver with pc := pc } }

/-- the next access of `do_request` -/
def drive (s : Blk) : Blk :=
  match s.driver.pc with
  | .store (w :: rest) => { s with dma := s.dma.put w }.goto (.store rest)
  | .store [] => s.goto (if s.driver.type = 1#32 then .copyIn 0 else .loadAvail)
  | .copyIn i =>
    if i < sectorSize then
      { s with dma := { s.dma with buf := Function.update s.dma.buf i (s.driver.data i) } }.goto (.copyIn (i + 1))
    else s.goto .loadAvail
  | .loadAvail => s.goto (.storeRing s.dma.availIdx)
  | .storeRing idx =>
    { s with dma := { s.dma with availRing := Function.update s.dma.availRing (idx.toNat % cfg.qsize) 0 } }.goto
      (.storeAvail idx)
  | .storeAvail idx => { s with dma := { s.dma with availIdx := idx + 1 }, sent := s.sent + 1 }.goto .notify
  | .notify => s.goto .loadLast
  | .loadLast => s.goto (.poll s.dma.usedIdx 0)
  | .poll last spins =>
    if s.dma.usedIdx = last then
      if spinLimit < spins + 1 then s.goto (.ret (-5)) else s.goto (.poll last (spins + 1))
    else s.goto .isr
  | .isr => s.goto (if s.driver.type = 0#32 then .copyOut 0 else .loadStatus)
  | .copyOut i =>
    if i < sectorSize then
      { s with driver := { s.driver with
          data := Function.update s.driver.data i (s.dma.buf i), pc := .copyOut (i + 1) } }
    else s.goto .loadStatus
  | .loadStatus => s.goto (.ret (if s.dma.st = 0#8 then 0 else -5))
  | .ret _ | .idle => s

/-- the device takes the next entry, if there is one, and reads the header -/
def fetch (s : Blk) : Blk :=
  let idx := BitVec.ofNat 16 s.device.taken
  if s.device.job = none ∧ idx ≠ s.dma.availIdx then
    match s.dma.chain cfg (s.dma.availRing (idx.toNat % cfg.qsize)).toNat with
    | some w =>
      { s with
        device := { s.device with job := some ⟨s.dma.type, s.dma.sector, w, 0, none⟩, taken := s.device.taken + 1 }
        served := s.served ++ [s.device.disk] }
    | none => s
  else s

/-- a byte goes from the disk to the buffer, or from the buffer to the disk -/
def move (s : Blk) : Blk :=
  match s.device.job with
  | some j =>
    if j.status = none ∧ j.moved < sectorSize then
      if j.type = 0#32 ∧ j.writable then
        { s with
          dma := { s.dma with buf := Function.update s.dma.buf j.moved (s.device.disk j.sector j.moved) }
          device := { s.device with job := some { j with moved := j.moved + 1 } } }
      else if j.type = 1#32 ∧ ¬ j.writable then
        { s with device := { s.device with
          disk := Function.update s.device.disk j.sector
            (Function.update (s.device.disk j.sector) j.moved (s.dma.buf j.moved))
          job := some { j with moved := j.moved + 1 } } }
      else s
    else s
  | none => s

/-- the device writes the status, which is 0 only if all bytes were moved -/
def finish (s : Blk) (v : BitVec 8) : Blk :=
  match s.device.job with
  | some j =>
    if j.status = none ∧ (v = 0#8 → j.moved = sectorSize) then
      { s with dma := { s.dma with st := v }, device := { s.device with job := some { j with status := some v } } }
    else s
  | none => s

/-- the device adds one to the used index -/
def complete (s : Blk) : Blk :=
  match s.device.job with
  | some j =>
    if j.status ≠ none then
      { s with dma := { s.dma with usedIdx := s.dma.usedIdx + 1 }, device := { s.device with job := none } }
    else s
  | none => s

def act (s : Blk) : Act → Blk
  | .drive => s.drive cfg
  | .fetch => s.fetch cfg
  | .move => s.move
  | .finish v => s.finish v
  | .complete => s.complete

/-- accesses of both, in any order -/
def acts (s : Blk) (l : List Act) : Blk := l.foldl (act cfg) s

/-- `do_request` is called -/
def doRequest (s : Blk) (type : BitVec 32) (sector : U64) (data : Sector) : Blk :=
  { s with driver := ⟨type, sector, data, .store (prepare cfg type sector)⟩ }

/-- no earlier request is outstanding: the device has taken every entry and is done with it -/
def Quiet (s : Blk) : Prop := s.device.job = none ∧ s.device.taken = s.sent

end Blk

/-- a call of `virtio_blk_read` or `virtio_blk_write`, or an access -/
inductive Event where
  | read (sector : U64) (buf : Sector)
  | write (sector : U64) (buf : Sector)
  | act (a : Act)

namespace Blk

variable (cfg : Config)

/-- the driver is in no request -/
def Free (s : Blk) : Prop := s.driver.pc = .idle ∨ ∃ r, s.driver.pc = .ret r

/-- a call, unless the driver is in a request: calls come one after the other -/
def call (s : Blk) (type : BitVec 32) (sector : U64) (data : Sector) : Blk :=
  match s.driver.pc with
  | .idle | .ret _ => s.doRequest cfg type sector data
  | _ => s

def step (s : Blk) : Event → Blk
  | .read sector buf => s.call cfg 0#32 sector buf
  | .write sector buf => s.call cfg 1#32 sector buf
  | .act a => s.act cfg a

def run (s : Blk) (l : List Event) : Blk := l.foldl (step cfg) s

end Blk

/-- after `virtio_blk_init`: the pages are zero, no request has been made -/
def start (disk : Disk) : Blk where
  dma := ⟨0, 0, 0, fun _ => ⟨0, 0, 0, 0⟩, fun _ => 0, fun _ => 0, 0, 0⟩
  driver := ⟨0, 0, fun _ => 0, .idle⟩
  device := ⟨disk, 0, none⟩
  sent := 0
  served := []

/-! ## `do_request` returns -/

/-- accesses the driver has left, at most -/
def Pc.left : Pc → ℕ
  | .idle | .ret _ => 0
  | .loadStatus => 1
  | .copyOut i => sectorSize - i + 2
  | .isr => sectorSize + 3
  | .poll _ spins => spinLimit - spins + sectorSize + 4
  | .loadLast => spinLimit + sectorSize + 5
  | .notify => spinLimit + sectorSize + 6
  | .storeAvail _ => spinLimit + sectorSize + 7
  | .storeRing _ => spinLimit + sectorSize + 8
  | .loadAvail => spinLimit + sectorSize + 9
  | .copyIn i => sectorSize - i + spinLimit + sectorSize + 10
  | .store rest => rest.length + sectorSize + spinLimit + sectorSize + 11

namespace Blk

variable {cfg : Config} {s : Blk}

@[simp] theorem goto_pc (s : Blk) (pc : Pc) : (s.goto pc).driver.pc = pc := rfl

theorem free_iff : s.Free ↔ s.driver.pc.left = 0 := by
  rw [Free]
  cases s.driver.pc <;> simp [Pc.left]

/-- **Progress.** Every access of the driver brings it closer to its return. -/
theorem drive_left (s : Blk) : (s.drive cfg).driver.pc.left ≤ s.driver.pc.left - 1 := by
  unfold drive
  cases h : s.driver.pc with
  | store rest =>
    cases rest with
    | nil => dsimp only; split_ifs <;> simp only [goto_pc, Pc.left, length_nil] <;> omega
    | cons w rest => simp only [goto_pc, Pc.left, length_cons]; omega
  | copyIn i => dsimp only; split_ifs <;> simp only [goto_pc, Pc.left] <;> omega
  | poll last spins => dsimp only; split_ifs <;> simp only [goto_pc, Pc.left] <;> omega
  | isr => dsimp only; split_ifs <;> simp only [goto_pc, Pc.left] <;> omega
  | copyOut i => dsimp only; split_ifs <;> simp only [goto_pc, Pc.left] <;> omega
  | idle => simp [h, Pc.left]
  | ret r => simp [h, Pc.left]
  | loadAvail => simp only [goto_pc, Pc.left]; omega
  | storeRing idx => simp only [goto_pc, Pc.left]; omega
  | storeAvail idx => simp only [goto_pc, Pc.left]; omega
  | notify => simp only [goto_pc, Pc.left]; omega
  | loadLast => simp only [goto_pc, Pc.left]; omega
  | loadStatus => simp [Pc.left]

/-- the device does nothing to the driver -/
theorem act_driver {a : Act} (h : a ≠ .drive) : (s.act cfg a).driver = s.driver := by
  cases a with
  | drive => exact absurd rfl h
  | fetch => unfold act fetch; dsimp only; split_ifs <;> [(split <;> rfl); rfl]
  | move => unfold act move; dsimp only; split <;> [(split_ifs <;> rfl); rfl]
  | finish v => unfold act finish; dsimp only; split <;> [(split_ifs <;> rfl); rfl]
  | complete => unfold act complete; dsimp only; split <;> [(split_ifs <;> rfl); rfl]

/-- **`do_request` returns**, whatever the device does meanwhile. -/
theorem acts_return {l : List Act} (h : s.driver.pc.left ≤ l.count .drive) : (s.acts cfg l).Free := by
  induction l generalizing s with
  | nil => exact free_iff.2 (Nat.le_zero.1 h)
  | cons a l ih =>
    refine ih ?_
    by_cases ha : a = .drive
    · subst ha
      rw [count_cons_self] at h
      have := @drive_left cfg s
      show (s.drive cfg).driver.pc.left ≤ l.count .drive
      omega
    · rw [count_cons_of_ne ha] at h
      rw [act_driver ha]
      exact h

end Blk

end Uix.Virtio
