/-
Requests to the virtio block device. A request that finds nothing outstanding has the shared pages to itself until it
returns, or for ever if it gives up.

- `Stage`: how far the device is with the entry of the driver.
- `During`: what holds while the driver is in such a request; `During.act`: every access of either side keeps it.
- `read_returns_sector`: if every request finds nothing outstanding, a read that returns 0 has the sector.
- `late_completion_taken`: a request that gave up completes in the next one, which returns 0 with the wrong sector.
- `completion_seen_iff`: a completion is noticed if it comes after the driver's read of `last`, and lost if it comes
  before.
-/
import Uix.Io.VirtioBlk

namespace Uix.Virtio

open List Function

/-! ## Preparing a request -/

namespace Dma

variable {cfg : Config} {m : Dma}

@[simp] theorem put_availIdx (m : Dma) (w : Store) : (m.put w).availIdx = m.availIdx := by cases w <;> rfl

@[simp] theorem put_usedIdx (m : Dma) (w : Store) : (m.put w).usedIdx = m.usedIdx := by cases w <;> rfl

/-- the header and the chain are those of a request -/
structure Ready (cfg : Config) (m : Dma) (type : BitVec 32) (sector : U64) : Prop where
  header : m.type = type ∧ m.sector = sector
  chain : m.chain cfg 0 = some (decide (type = 0#32))

/-- **The stores of `do_request`** prepare it, whatever was there. -/
theorem prepare_ready (m : Dma) (type : BitVec 32) (sector : U64) :
    Ready cfg ((prepare cfg type sector).foldl put m) type sector := by
  refine ⟨⟨rfl, rfl⟩, ?_⟩
  by_cases h : type = 0#32
  · simp [prepare, put, setDesc, chain, update, descNext, descWrite, h]
  · simp [prepare, put, setDesc, chain, update, descNext, descWrite, h]

end Dma

/-! ## A request under way -/

namespace Blk

variable {cfg : Config} {u : BitVec 16} {s : Blk}

/-- the counters agree with the index the device reads and with what it recorded -/
structure Counted (s : Blk) : Prop where
  avail : s.dma.availIdx = BitVec.ofNat 16 s.sent
  served : s.served.length = s.device.taken

/-- the data of a write is in the buffer -/
def Filled (s : Blk) : Prop := s.driver.type = 1#32 → ∀ i < sectorSize, s.dma.buf i = s.driver.data i

/-- the first `n` bytes of the driver's request have been moved -/
structure Moved (s : Blk) (n : ℕ) : Prop where
  read : s.driver.type = 0#32 →
    s.served[s.sent - 1]? = some s.device.disk ∧ ∀ i < n, s.dma.buf i = s.device.disk s.driver.sector i
  write : s.driver.type = 1#32 → ∀ i < n, s.device.disk s.driver.sector i = s.driver.data i

/-- the device is done with the entry -/
structure Over (u : BitVec 16) (s : Blk) : Prop where
  quiet : s.Quiet
  used : s.dma.usedIdx = u + 1
  moved : s.dma.st = 0#8 → s.Moved sectorSize

/-- the job is the driver's request -/
structure Serves (s : Blk) (j : Job) : Prop where
  type : j.type = s.driver.type
  sector : j.sector = s.driver.sector
  writable : j.writable = decide (s.driver.type = 0#32)
  filled : s.Filled
  moved : s.Moved j.moved
  status : ∀ v, j.status = some v → s.dma.st = v ∧ (v = 0#8 → j.moved = sectorSize)

/-- how far the device is with the entry that the driver made available when the used index was `u` -/
inductive Stage (cfg : Config) (u : BitVec 16) (s : Blk) : Prop where
  | waiting (job : s.device.job = none) (taken : s.device.taken + 1 = s.sent) (used : s.dma.usedIdx = u)
      (ready : s.dma.Ready cfg s.driver.type s.driver.sector) (filled : s.Filled)
      (head : s.dma.availRing ((BitVec.ofNat 16 s.device.taken).toNat % cfg.qsize) = 0)
  | working (j : Job) (job : s.device.job = some j) (taken : s.device.taken = s.sent) (used : s.dma.usedIdx = u)
      (mine : s.Serves j)
  | ended (done : s.Over u)

/-- the caller has what the request was for: the sector as the entry was taken, or the data on the disk -/
structure Fulfilled (s : Blk) : Prop where
  read : s.driver.type = 0#32 →
    ∃ d, s.served[s.sent - 1]? = some d ∧ ∀ i < sectorSize, s.driver.data i = d s.driver.sector i
  write : s.driver.type = 1#32 → ∀ i < sectorSize, s.device.disk s.driver.sector i = s.driver.data i

/-- nothing has been made available yet -/
structure Preparing (cfg : Config) (u : BitVec 16) (s : Blk) : Prop where
  quiet : s.Quiet
  used : s.dma.usedIdx = u
  ready : s.dma.Ready cfg s.driver.type s.driver.sector

/-- what holds at each place of `do_request` -/
def At (cfg : Config) (u : BitVec 16) (s : Blk) : Pc → Prop
  | .idle => True
  | .store rest => s.Quiet ∧ s.dma.usedIdx = u ∧ (rest.foldl Dma.put s.dma).Ready cfg s.driver.type s.driver.sector
  | .copyIn i => s.Preparing cfg u ∧ i ≤ sectorSize ∧ ∀ j < i, s.dma.buf j = s.driver.data j
  | .loadAvail => s.Preparing cfg u ∧ s.Filled
  | .storeRing idx => s.Preparing cfg u ∧ s.Filled ∧ idx = s.dma.availIdx
  | .storeAvail idx => s.Preparing cfg u ∧ s.Filled ∧ idx = s.dma.availIdx ∧ s.dma.availRing (idx.toNat % cfg.qsize) = 0
  | .notify | .loadLast => s.Stage cfg u
  | .poll last _ => s.Stage cfg u ∧ (last = u ∨ last = u + 1 ∧ s.Over u)
  | .isr => s.Over u
  | .copyOut i => s.Over u ∧ s.driver.type = 0#32 ∧ i ≤ sectorSize ∧ ∀ j < i, s.driver.data j = s.dma.buf j
  | .loadStatus => s.Over u ∧ (s.driver.type = 0#32 → ∀ j < sectorSize, s.driver.data j = s.dma.buf j)
  | .ret r => r = 0 → s.Over u ∧ s.Fulfilled

/-- a request that found nothing outstanding and the used index at `u` is under way, or was the last one -/
structure During (cfg : Config) (u : BitVec 16) (s : Blk) : Prop where
  counted : s.Counted
  here : s.At cfg u s.driver.pc

/-! ### The device -/

/-- with nothing outstanding the device does nothing -/
theorem quiet_act (hc : s.Counted) (h : s.Quiet) {a : Act} (ha : a ≠ .drive) : s.act cfg a = s := by
  obtain ⟨hjob, htaken⟩ := h
  cases a with
  | drive => exact absurd rfl ha
  | fetch =>
    refine if_neg fun hidx => hidx.2 ?_
    rw [hc.avail, htaken]
  | move => simp only [act, move, hjob]
  | finish v => simp only [act, finish, hjob]
  | complete => simp only [act, complete, hjob]

/-- all that the device can do -/
inductive DeviceStep (cfg : Config) (s : Blk) : Blk → Prop where
  | stay : DeviceStep cfg s s
  | fetch (w : Bool) (job : s.device.job = none) (idx : BitVec.ofNat 16 s.device.taken ≠ s.dma.availIdx)
      (chain : s.dma.chain cfg (s.dma.availRing ((BitVec.ofNat 16 s.device.taken).toNat % cfg.qsize)).toNat = some w) :
      DeviceStep cfg s { s with
        device := { s.device with job := some ⟨s.dma.type, s.dma.sector, w, 0, none⟩, taken := s.device.taken + 1 }
        served := s.served ++ [s.device.disk] }
  | toBuf (j : Job) (job : s.device.job = some j) (status : j.status = none) (moved : j.moved < sectorSize)
      (type : j.type = 0#32) : DeviceStep cfg s { s with
        dma := { s.dma with buf := Function.update s.dma.buf j.moved (s.device.disk j.sector j.moved) }
        device := { s.device with job := some { j with moved := j.moved + 1 } } }
  | toDisk (j : Job) (job : s.device.job = some j) (status : j.status = none) (moved : j.moved < sectorSize)
      (type : j.type = 1#32) : DeviceStep cfg s { s with device := { s.device with
        disk := Function.update s.device.disk j.sector
          (Function.update (s.device.disk j.sector) j.moved (s.dma.buf j.moved))
        job := some { j with moved := j.moved + 1 } } }
  | finish (j : Job) (v : BitVec 8) (job : s.device.job = some j) (status : j.status = none)
      (all : v = 0#8 → j.moved = sectorSize) : DeviceStep cfg s { s with
        dma := { s.dma with st := v }
        device := { s.device with job := some { j with status := some v } } }
  | complete (j : Job) (v : BitVec 8) (job : s.device.job = some j) (status : j.status = some v) :
      DeviceStep cfg s { s with
        dma := { s.dma with usedIdx := s.dma.usedIdx + 1 }
        device := { s.device with job := none } }

theorem act_device {a : Act} (ha : a ≠ .drive) : DeviceStep cfg s (s.act cfg a) := by
  cases a with
  | drive => exact absurd rfl ha
  | fetch =>
    unfold act Blk.fetch
    dsimp only
    split_ifs with h
    · split
      · exact .fetch _ h.1 h.2 ‹_›
      · exact .stay
    · exact .stay
  | move =>
    unfold act move
    dsimp only
    split
    · split_ifs with h h1 h2
      · exact .toBuf _ ‹_› h.1 h.2 h1.1
      · exact .toDisk _ ‹_› h.1 h.2 h2.1
      · exact .stay
      · exact .stay
    · exact .stay
  | finish v =>
    unfold act Blk.finish
    dsimp only
    split
    · split_ifs with h
      · exact .finish _ v ‹_› h.1 h.2
      · exact .stay
    · exact .stay
  | complete =>
    unfold act Blk.complete
    dsimp only
    split
    · split_ifs with h
      · obtain ⟨v, hv⟩ := Option.ne_none_iff_exists'.1 h
        exact .complete _ v ‹_› hv
      · exact .stay
    · exact .stay

theorem DeviceStep.counted {t : Blk} (h : DeviceStep cfg s t) (hc : s.Counted) : t.Counted := by
  cases h with
  | stay => exact hc
  | fetch w job idx chain => exact ⟨hc.avail, by simp [hc.served]⟩
  | toBuf | toDisk | finish | complete => exact ⟨hc.avail, hc.served⟩

theorem DeviceStep.availIdx {t : Blk} (h : DeviceStep cfg s t) : t.dma.availIdx = s.dma.availIdx := by
  cases h with
  | stay | fetch | toBuf | toDisk | finish | complete => rfl

/-- the entry is taken -/
theorem Stage.taken (hc : s.Counted) (htaken : s.device.taken + 1 = s.sent) (hused : s.dma.usedIdx = u)
    (hready : s.dma.Ready cfg s.driver.type s.driver.sector) (hfilled : s.Filled) :
    Stage cfg u { s with
      device := { s.device with
        job := some ⟨s.dma.type, s.dma.sector, decide (s.driver.type = 0#32), 0, none⟩
        taken := s.device.taken + 1 }
      served := s.served ++ [s.device.disk] } := by
  refine .working _ rfl htaken hused ⟨hready.header.1, hready.header.2, rfl, hfilled, ⟨fun _ => ⟨?_, ?_⟩, ?_⟩, ?_⟩
  · show (s.served ++ [s.device.disk])[s.sent - 1]? = some s.device.disk
    rw [← htaken, Nat.add_sub_cancel, ← hc.served]
    exact getElem?_concat_length
  · exact fun i hi => absurd hi (Nat.not_lt_zero i)
  · exact fun _ i hi => absurd hi (Nat.not_lt_zero i)
  · intro v hv
    cases hv

/-- a job is for that entry -/
theorem Stage.serves {j : Job} (hs : s.Stage cfg u) (job : s.device.job = some j) :
    s.device.taken = s.sent ∧ s.dma.usedIdx = u ∧ s.Serves j := by
  cases hs with
  | waiting hjob => rw [job] at hjob; cases hjob
  | ended hover => rw [hover.quiet.1] at job; cases job
  | working j' hjob htaken hused hmine =>
    obtain rfl := Option.some.inj (job.symm.trans hjob)
    exact ⟨htaken, hused, hmine⟩

/-- **The device** goes on with the driver's entry, and with nothing else. -/
theorem DeviceStep.stage {t : Blk} (h : DeviceStep cfg s t) (hc : s.Counted) (hs : s.Stage cfg u) : t.Stage cfg u := by
  cases h with
  | stay => exact hs
  | fetch w job idx chain =>
    cases hs with
    | waiting _ htaken hused hready hfilled hhead =>
      rw [hhead] at chain
      obtain rfl := Option.some.inj (chain.symm.trans hready.chain)
      exact .taken hc htaken hused hready hfilled
    | working j hjob => rw [job] at hjob; cases hjob
    | ended hover => exact absurd (by rw [hc.avail, hover.quiet.2]) idx
  | toBuf j job status moved type =>
    obtain ⟨htaken, hused, hmine⟩ := hs.serves job
    have htype : s.driver.type = 0#32 := hmine.type ▸ type
    have hwrong : s.driver.type ≠ 1#32 := by rw [htype]; decide
    refine .working _ rfl htaken hused ⟨hmine.type, hmine.sector, hmine.writable, fun h1 => absurd h1 hwrong,
      ⟨fun _ => ⟨(hmine.moved.read htype).1, fun i hi => ?_⟩, fun h1 => absurd h1 hwrong⟩, fun v hv => ?_⟩
    · by_cases h : i = j.moved
      · subst h
        exact (update_self ..).trans (by rw [hmine.sector])
      · refine (update_of_ne h ..).trans ((hmine.moved.read htype).2 i ?_)
        exact lt_of_le_of_ne (Nat.lt_succ_iff.1 hi) h
    · rw [status] at hv
      cases hv
  | toDisk j job status moved type =>
    obtain ⟨htaken, hused, hmine⟩ := hs.serves job
    have htype : s.driver.type = 1#32 := hmine.type ▸ type
    have hwrong : s.driver.type ≠ 0#32 := by rw [htype]; decide
    refine .working _ rfl htaken hused ⟨hmine.type, hmine.sector, hmine.writable, hmine.filled,
      ⟨fun h0 => absurd h0 hwrong, fun _ i hi => ?_⟩, fun v hv => ?_⟩
    · show update s.device.disk j.sector _ s.driver.sector i = s.driver.data i
      rw [← hmine.sector, update_self]
      by_cases h : i = j.moved
      · subst h
        rw [update_self]
        exact hmine.filled htype _ moved
      · rw [update_of_ne h, hmine.sector]
        exact hmine.moved.write htype i (lt_of_le_of_ne (Nat.lt_succ_iff.1 hi) h)
    · rw [status] at hv
      cases hv
  | finish j v job status all =>
    obtain ⟨htaken, hused, hmine⟩ := hs.serves job
    refine .working _ rfl htaken hused ⟨hmine.type, hmine.sector, hmine.writable, hmine.filled,
      ⟨hmine.moved.read, hmine.moved.write⟩, fun v' hv => ?_⟩
    obtain rfl := Option.some.inj hv
    exact ⟨rfl, all⟩
  | complete j v job status =>
    obtain ⟨htaken, hused, hmine⟩ := hs.serves job
    obtain ⟨hst, hall⟩ := hmine.status v status
    refine .ended ⟨⟨rfl, htaken⟩, congrArg (· + 1) hused, fun h0 => ?_⟩
    have hmoved := hmine.moved
    rw [hall (hst.symm.trans h0)] at hmoved
    exact ⟨hmoved.read, hmoved.write⟩

/-- **An access of the device** keeps what holds during a request. -/
theorem During.device {a : Act} (h : s.During cfg u) (ha : a ≠ .drive) : (s.act cfg a).During cfg u := by
  by_cases hq : s.Quiet
  · rw [quiet_act h.counted hq ha]
    exact h
  obtain ⟨hc, hat⟩ := h
  have hstep := @act_device cfg s a ha
  refine ⟨hstep.counted hc, ?_⟩
  rw [act_driver ha]
  -- only after the entry was made available is there anything to do
  cases hpc : s.driver.pc with
  | idle => trivial
  | store rest => rw [hpc] at hat; exact absurd hat.1 hq
  | copyIn i => rw [hpc] at hat; exact absurd hat.1.quiet hq
  | loadAvail => rw [hpc] at hat; exact absurd hat.1.quiet hq
  | storeRing idx => rw [hpc] at hat; exact absurd hat.1.quiet hq
  | storeAvail idx => rw [hpc] at hat; exact absurd hat.1.quiet hq
  | notify => rw [hpc] at hat; exact hstep.stage hc hat
  | loadLast => rw [hpc] at hat; exact hstep.stage hc hat
  | poll last spins =>
    rw [hpc] at hat
    exact ⟨hstep.stage hc hat.1, hat.2.imp_right fun h => absurd h.2.quiet hq⟩
  | isr => rw [hpc] at hat; exact absurd hat.quiet hq
  | copyOut i => rw [hpc] at hat; exact absurd hat.1.quiet hq
  | loadStatus => rw [hpc] at hat; exact absurd hat.1.quiet hq
  | ret r => rw [hpc] at hat; exact fun h0 => absurd (hat h0).1.quiet hq

/-! ### The driver -/

theorem Stage.goto (h : s.Stage cfg u) (pc : Pc) : (s.goto pc).Stage cfg u := by
  cases h with
  | waiting job taken used ready filled head => exact .waiting job taken used ready filled head
  | working j job taken used mine =>
    exact .working j job taken used
      ⟨mine.type, mine.sector, mine.writable, mine.filled, ⟨mine.moved.read, mine.moved.write⟩, mine.status⟩
  | ended h => exact .ended ⟨h.quiet, h.used, fun h0 => ⟨(h.moved h0).read, (h.moved h0).write⟩⟩

theorem Over.goto (h : s.Over u) (pc : Pc) : (s.goto pc).Over u :=
  ⟨h.quiet, h.used, fun h0 => ⟨(h.moved h0).read, (h.moved h0).write⟩⟩

theorem Stage.used (h : s.Stage cfg u) : s.dma.usedIdx = u ∨ s.Over u := by
  cases h with
  | waiting _ _ h => exact .inl h
  | working _ _ _ h => exact .inl h
  | ended h => exact .inr h

/-- **An access of the driver** keeps what holds during a request. -/
theorem During.drive (h : s.During cfg u) : (s.drive cfg).During cfg u := by
  obtain ⟨hc, hat⟩ := h
  unfold Blk.drive
  cases hpc : s.driver.pc with
  | idle => exact ⟨hc, hat⟩
  | ret r => exact ⟨hc, hat⟩
  | store rest =>
    rw [hpc] at hat
    obtain ⟨hq, hused, hready⟩ := hat
    cases rest with
    | nil =>
      dsimp only
      split_ifs with htype
      · exact ⟨⟨hc.avail, hc.served⟩, ⟨hq, hused, hready⟩, Nat.zero_le _, fun j hj => absurd hj (Nat.not_lt_zero j)⟩
      · exact ⟨⟨hc.avail, hc.served⟩, ⟨hq, hused, hready⟩, fun h1 => absurd h1 htype⟩
    | cons w rest =>
      exact ⟨⟨(Dma.put_availIdx ..).trans hc.avail, hc.served⟩, hq, (Dma.put_usedIdx ..).trans hused, hready⟩
  | copyIn i =>
    rw [hpc] at hat
    obtain ⟨hprep, hle, hcopied⟩ := hat
    dsimp only
    split_ifs with hi
    · refine ⟨⟨hc.avail, hc.served⟩, ⟨hprep.quiet, hprep.used, ⟨hprep.ready.header, hprep.ready.chain⟩⟩, hi,
        fun j hj => ?_⟩
      by_cases h : j = i
      · subst h
        exact update_self ..
      · exact (update_of_ne h ..).trans (hcopied j (lt_of_le_of_ne (Nat.lt_succ_iff.1 hj) h))
    · exact ⟨⟨hc.avail, hc.served⟩, ⟨hprep.quiet, hprep.used, hprep.ready⟩, fun _ j hj => hcopied j (by omega)⟩
  | loadAvail =>
    rw [hpc] at hat
    exact ⟨⟨hc.avail, hc.served⟩, ⟨hat.1.quiet, hat.1.used, hat.1.ready⟩, hat.2, rfl⟩
  | storeRing idx =>
    rw [hpc] at hat
    obtain ⟨hprep, hfilled, hidx⟩ := hat
    exact ⟨⟨hc.avail, hc.served⟩, ⟨hprep.quiet, hprep.used, ⟨hprep.ready.header, hprep.ready.chain⟩⟩, hfilled, hidx,
      update_self ..⟩
  | storeAvail idx =>
    rw [hpc] at hat
    obtain ⟨hprep, hfilled, hidx, hhead⟩ := hat
    rw [hidx, hc.avail, ← hprep.quiet.2] at hhead
    refine ⟨⟨?_, hc.served⟩, .waiting hprep.quiet.1 (congrArg (· + 1) hprep.quiet.2) hprep.used
      ⟨hprep.ready.header, hprep.ready.chain⟩ hfilled hhead⟩
    show idx + 1 = BitVec.ofNat 16 (s.sent + 1)
    rw [hidx, hc.avail, BitVec.ofNat_add]
    rfl
  | notify => rw [hpc] at hat; exact ⟨⟨hc.avail, hc.served⟩, Stage.goto hat _⟩
  | loadLast =>
    rw [hpc] at hat
    refine ⟨⟨hc.avail, hc.served⟩, Stage.goto hat _, ?_⟩
    rcases Stage.used hat with h | h
    · exact .inl h
    · exact .inr ⟨h.used, h.goto _⟩
  | poll last spins =>
    rw [hpc] at hat
    obtain ⟨hstage, hlast⟩ := hat
    dsimp only
    split_ifs with hused hlimit
    · refine ⟨⟨hc.avail, hc.served⟩, ?_⟩
      show (-5 : ℤ) = 0 → _
      intro h
      cases h
    · exact ⟨⟨hc.avail, hc.served⟩, hstage.goto _, hlast.imp_right fun h => ⟨h.1, h.2.goto _⟩⟩
    · refine ⟨⟨hc.avail, hc.served⟩, ?_⟩
      rcases hlast with h | h
      · exact (hstage.used.resolve_left fun hu => hused (hu.trans h.symm)).goto _
      · exact h.2.goto _
  | isr =>
    rw [hpc] at hat
    dsimp only
    split_ifs with htype
    · exact ⟨⟨hc.avail, hc.served⟩, Over.goto hat _, htype, Nat.zero_le _, fun j hj => absurd hj (Nat.not_lt_zero j)⟩
    · exact ⟨⟨hc.avail, hc.served⟩, Over.goto hat _, fun h0 => absurd h0 htype⟩
  | copyOut i =>
    rw [hpc] at hat
    obtain ⟨hover, htype, hle, hcopied⟩ := hat
    have hwrong : s.driver.type ≠ 1#32 := by rw [htype]; decide
    dsimp only
    split_ifs with hi
    · refine ⟨⟨hc.avail, hc.served⟩,
        ⟨hover.quiet, hover.used, fun h0 => ⟨(hover.moved h0).read, fun h1 => absurd h1 hwrong⟩⟩,
        htype, hi, fun j hj => ?_⟩
      by_cases h : j = i
      · subst h
        exact update_self ..
      · exact (update_of_ne h ..).trans (hcopied j (lt_of_le_of_ne (Nat.lt_succ_iff.1 hj) h))
    · exact ⟨⟨hc.avail, hc.served⟩, hover.goto _, fun _ j hj => hcopied j (by omega)⟩
  | loadStatus =>
    rw [hpc] at hat
    obtain ⟨hover, hcopied⟩ := hat
    refine ⟨⟨hc.avail, hc.served⟩, fun h0 => ⟨hover.goto _, ?_⟩⟩
    have hst : s.dma.st = 0#8 := by
      by_contra hst
      rw [if_neg hst] at h0
      cases h0
    have hmoved := hover.moved hst
    refine ⟨fun h => ⟨_, (hmoved.read h).1, fun i hi => ?_⟩, hmoved.write⟩
    exact (hcopied h i hi).trans ((hmoved.read h).2 i hi)

/-- **Every access** keeps what holds during a request. -/
theorem During.act (h : s.During cfg u) (a : Act) : (s.act cfg a).During cfg u := by
  by_cases ha : a = .drive
  · subst ha
    exact h.drive
  · exact h.device ha

/-- **A request that finds nothing outstanding** is one. -/
theorem during_doRequest (hc : s.Counted) (hq : s.Quiet) (type : BitVec 32) (sector : U64) (data : Sector) :
    (s.doRequest cfg type sector data).During cfg s.dma.usedIdx :=
  ⟨⟨hc.avail, hc.served⟩, hq, rfl, Dma.prepare_ready s.dma type sector⟩

end Blk

/-! ## Reads -/

namespace Blk

variable {cfg : Config} {s : Blk}

/-- a read that returned 0 left the sector in the caller's buffer, as it was when the device took that very request -/
def ReadHonest (s : Blk) : Prop := s.driver.pc = .ret 0 → s.driver.type = 0#32 →
  ∃ d, s.served[s.sent - 1]? = some d ∧ ∀ i < sectorSize, s.driver.data i = d s.driver.sector i

/-- every request of the run finds nothing outstanding -/
def Undisturbed (cfg : Config) : Blk → List Event → Prop
  | _, [] => True
  | s, e :: l => ((∀ a, e ≠ .act a) → s.Free → s.Quiet) ∧ Undisturbed cfg (s.step cfg e) l

theorem call_eq (type : BitVec 32) (sector : U64) (data : Sector) :
    s.Free ∧ s.call cfg type sector data = s.doRequest cfg type sector data ∨
      ¬ s.Free ∧ s.call cfg type sector data = s := by
  unfold call Free
  cases s.driver.pc <;> simp

/-- the invariant of undisturbed runs -/
theorem step_during {e : Event} (h : ∃ u, s.During cfg u) (he : (∀ a, e ≠ .act a) → s.Free → s.Quiet) :
    ∃ u, (s.step cfg e).During cfg u := by
  obtain ⟨u, h⟩ := h
  have hcall : ∀ type sector data, (s.Free → s.Quiet) → ∃ u, (s.call cfg type sector data).During cfg u := by
    intro type sector data hq
    rcases @call_eq cfg s type sector data with ⟨hfree, hcall⟩ | ⟨-, hcall⟩
    · rw [hcall]
      exact ⟨_, during_doRequest h.counted (hq hfree) type sector data⟩
    · rw [hcall]
      exact ⟨u, h⟩
  cases e with
  | read sector buf => exact hcall _ _ _ (he fun a => by simp)
  | write sector buf => exact hcall _ _ _ (he fun a => by simp)
  | act a => exact ⟨u, h.act a⟩

theorem run_during {l : List Event} (h : ∃ u, s.During cfg u) (hl : Undisturbed cfg s l) :
    ∃ u, (s.run cfg l).During cfg u := by
  induction l generalizing s with
  | nil => exact h
  | cons e l ih => exact ih (step_during h hl.1) hl.2

theorem During.readHonest {u : BitVec 16} (h : s.During cfg u) : s.ReadHonest := by
  intro hpc htype
  have hat := h.here
  rw [hpc] at hat
  exact (hat rfl).2.read htype

theorem start_counted (disk : Disk) : (start disk).Counted := ⟨rfl, rfl⟩

/-- **Reads.** In every run in which each request finds no earlier one outstanding, a read that returns 0 has the
content of its sector as of the device's processing of that request. -/
theorem read_returns_sector (cfg : Config) (disk : Disk) (l : List Event) (h : Undisturbed cfg (start disk) l) :
    ((start disk).run cfg l).ReadHonest := by
  obtain ⟨u, hu⟩ := run_during ⟨0#16, start_counted disk, trivial⟩ h
  exact hu.readHonest

theorem undisturbed_acts (cfg : Config) (s : Blk) (l : List Act) : Undisturbed cfg s (l.map .act) := by
  induction l generalizing s with
  | nil => trivial
  | cons a l ih => exact ⟨fun h => absurd rfl (h a), ih _⟩

/-- every sector is filled with its number -/
def numbered : Disk := fun n _ => n.setWidth 8

/-- up to the first poll; the device takes the entry, moves the sector and is done; the rest of the driver -/
def oneRead : List Act :=
  List.replicate 21 .drive ++ .fetch :: List.replicate 512 .move ++ [.finish 0, .complete] ++ List.replicate 516 .drive

/-- a read of sector 7 -/
def readSeven : Blk := (start numbered).run ⟨0x100000, 256⟩ (.read 7 (fun _ => 0) :: oneRead.map .act)

theorem read_returns_sector_seven : readSeven.driver.pc = .ret 0 ∧ readSeven.driver.data 511 = 7 := by
  have hpc : readSeven.driver.pc = .ret 0 := by decide +kernel
  have hl : Undisturbed ⟨0x100000, 256⟩ (start numbered) (.read 7 (fun _ => 0) :: oneRead.map .act) :=
    ⟨fun _ _ => ⟨rfl, rfl⟩, undisturbed_acts _ _ _⟩
  have hhonest : readSeven.ReadHonest := read_returns_sector _ _ _ hl
  have htype : readSeven.driver.type = 0#32 := by decide +kernel
  obtain ⟨d, hd, hdata⟩ := hhonest hpc htype
  have hseven : (readSeven.served[readSeven.sent - 1]?).map (fun d => d readSeven.driver.sector 511) = some 7 := by
    decide +kernel
  refine ⟨hpc, (hdata 511 (by decide)).trans ?_⟩
  rw [hd] at hseven
  exact Option.some.inj hseven

/-- the driver gives up -/
theorem acts_timeout {last : BitVec 16} {n k : ℕ} (hk : n + k = spinLimit) (hpc : s.driver.pc = .poll last n)
    (hused : s.dma.usedIdx = last) : s.acts cfg (replicate (k + 1) .drive) = s.goto (.ret (-5)) := by
  induction k generalizing s n with
  | zero =>
    show s.drive cfg = _
    simp only [drive, hpc, hused, if_true]
    rw [if_pos (by omega)]
  | succ k ih =>
    have hstep : s.drive cfg = s.goto (.poll last (n + 1)) := by
      simp only [drive, hpc, hused, if_true]
      rw [if_neg (by omega)]
    have := @ih (s.goto (.poll last (n + 1))) (n + 1) (by omega) rfl hused
    rw [replicate_succ]
    show (s.drive cfg).acts cfg (replicate (k + 1) .drive) = _
    rw [hstep, this]
    rfl

theorem run_append (cfg : Config) (s : Blk) (l m : List Event) : s.run cfg (l ++ m) = (s.run cfg l).run cfg m :=
  foldl_append

theorem run_acts (cfg : Config) (s : Blk) (l : List Act) : s.run cfg (l.map .act) = s.acts cfg l := foldl_map

/-- a read of sector 0, up to its first poll -/
def readZero : Blk := (start numbered).run ⟨0x100000, 256⟩ (.read 0 (fun _ => 0) :: (List.replicate 21 .drive).map .act)

/-- the driver polls before the device moves a sector and is done -/
def lateActs : List Act :=
  List.replicate 21 .drive ++ List.replicate 512 .move ++ [.finish 0, .complete] ++ List.replicate 516 .drive

/-- the device takes the old entry, and completes it while the driver reads sector 1 -/
def lateRead : List Event := .act .fetch :: .read 1 (fun _ => 0) :: lateActs.map .act

/-- **A late completion.** The read of sector 1 returns 0 with the content of sector 0, which the device read for the
request before; it has not taken the entry for sector 1 yet. -/
theorem late_completion_taken : ∃ l, let s := (start numbered).run ⟨0x100000, 256⟩ l
    s.driver.pc = .ret 0 ∧ s.driver.type = 0#32 ∧ s.driver.sector = 1 ∧ s.driver.data 0 = 0 ∧ s.device.disk 1 0 = 1 ∧
      ¬ s.ReadHonest := by
  refine ⟨(.read 0 (fun _ => 0) :: (List.replicate 21 .drive).map .act) ++
    ((List.replicate (spinLimit + 1) .drive).map .act ++ lateRead), ?_⟩
  rw [run_append, run_append, run_acts, show (start numbered).run ⟨0x100000, 256⟩
    (.read 0 (fun _ => 0) :: (List.replicate 21 .drive).map .act) = readZero from rfl,
    acts_timeout (Nat.zero_add spinLimit) (show readZero.driver.pc = .poll 0 0 by decide +kernel) (by decide +kernel)]
  have hpc : ((readZero.goto (.ret (-5))).run ⟨0x100000, 256⟩ lateRead).driver.pc = .ret 0 := by decide +kernel
  have htype : ((readZero.goto (.ret (-5))).run ⟨0x100000, 256⟩ lateRead).driver.type = 0#32 := by decide +kernel
  have hserved : ((readZero.goto (.ret (-5))).run ⟨0x100000, 256⟩ lateRead).served.length = 1 := by decide +kernel
  have hsent : ((readZero.goto (.ret (-5))).run ⟨0x100000, 256⟩ lateRead).sent = 2 := by decide +kernel
  refine ⟨hpc, htype, by decide +kernel, by decide +kernel, by decide +kernel, fun h => ?_⟩
  obtain ⟨d, hd, -⟩ := h hpc htype
  rw [hsent, List.getElem?_eq_none (by rw [hserved])] at hd
  cases hd

/-! ## Completions -/

/-- the counters in any run, with requests outstanding or not -/
structure Tallied (s : Blk) : Prop where
  counted : s.Counted
  idx : ∀ idx, s.driver.pc = .storeRing idx ∨ s.driver.pc = .storeAvail idx → idx = s.dma.availIdx

theorem Tallied.drive (h : s.Tallied) : (s.drive cfg).Tallied := by
  obtain ⟨hc, hidx⟩ := h
  have hother : ∀ t : Blk, t.Counted → (∀ idx, t.driver.pc ≠ .storeRing idx ∧ t.driver.pc ≠ .storeAvail idx) →
      t.Tallied :=
    fun t ht hpc => ⟨ht, fun idx h => h.elim (fun h => absurd h (hpc idx).1) fun h => absurd h (hpc idx).2⟩
  unfold Blk.drive
  cases hpc : s.driver.pc with
  | idle => exact ⟨hc, hidx⟩
  | ret r => exact ⟨hc, hidx⟩
  | store rest =>
    cases rest with
    | nil => exact hother _ ⟨hc.avail, hc.served⟩ fun idx => by dsimp only; split_ifs <;> simp
    | cons w rest => exact hother _ ⟨(Dma.put_availIdx ..).trans hc.avail, hc.served⟩ fun idx => by simp
  | copyIn i => dsimp only; split_ifs <;> exact hother _ ⟨hc.avail, hc.served⟩ fun idx => by simp
  | loadAvail => exact ⟨⟨hc.avail, hc.served⟩, fun idx h => Eq.symm (show s.dma.availIdx = idx by simpa using h)⟩
  | storeRing idx => exact ⟨⟨hc.avail, hc.served⟩, fun i h => hidx i (.inl (by simpa [hpc] using h))⟩
  | storeAvail idx =>
    refine hother _ ⟨?_, hc.served⟩ fun idx => by simp
    show idx + 1 = BitVec.ofNat 16 (s.sent + 1)
    rw [hidx idx (.inr hpc), hc.avail, BitVec.ofNat_add]
    rfl
  | notify => exact hother _ ⟨hc.avail, hc.served⟩ fun idx => by simp
  | loadLast => exact hother _ ⟨hc.avail, hc.served⟩ fun idx => by simp
  | poll last spins => dsimp only; split_ifs <;> exact hother _ ⟨hc.avail, hc.served⟩ fun idx => by simp
  | isr => exact hother _ ⟨hc.avail, hc.served⟩ fun idx => by dsimp only; split_ifs <;> simp
  | copyOut i => dsimp only; split_ifs <;> exact hother _ ⟨hc.avail, hc.served⟩ fun idx => by simp
  | loadStatus => exact hother _ ⟨hc.avail, hc.served⟩ fun idx => by simp

theorem step_tallied (h : s.Tallied) (e : Event) : (s.step cfg e).Tallied := by
  have hcall : ∀ type sector data, (s.call cfg type sector data).Tallied := by
    intro type sector data
    rcases @call_eq cfg s type sector data with ⟨-, hcall⟩ | ⟨-, hcall⟩
    · rw [hcall]
      exact ⟨⟨h.counted.avail, h.counted.served⟩, fun idx hpc => by simp [doRequest] at hpc⟩
    · rw [hcall]
      exact h
  cases e with
  | read sector buf => exact hcall _ _ _
  | write sector buf => exact hcall _ _ _
  | act a =>
    by_cases ha : a = .drive
    · subst ha
      exact h.drive
    · have hstep := @act_device cfg s a ha
      refine ⟨hstep.counted h.counted, fun idx hpc => ?_⟩
      rw [show s.step cfg (.act a) = s.act cfg a from rfl, act_driver ha] at hpc
      exact (h.idx idx hpc).trans hstep.availIdx.symm

/-- **The counters** agree in every run. -/
theorem run_counted (cfg : Config) (disk : Disk) (l : List Event) : ((start disk).run cfg l).Counted := by
  suffices h : ((start disk).run cfg l).Tallied from h.counted
  unfold run
  refine foldlRecOn l (step cfg) ⟨start_counted disk, ?_⟩ fun s h e _ => step_tallied h e
  intro idx h
  simp [start] at h

theorem acts_during {u : BitVec 16} {l : List Act} (h : s.During cfg u) : (s.acts cfg l).During cfg u :=
  foldlRecOn l (act cfg) h fun _ h a _ => h.act a

/-- the driver has read `last` and polls for another index -/
def Polling (s : Blk) : Prop := ∃ last spins, s.driver.pc = .poll last spins

/-- the device is done with the request, without an error -/
structure Completed (u : BitVec 16) (s : Blk) : Prop where
  counted : s.Counted
  quiet : s.Quiet
  used : s.dma.usedIdx = u + 1
  st : s.dma.st = 0#8

theorem Completed.goto {u : BitVec 16} (h : s.Completed u) (pc : Pc) : (s.goto pc).Completed u :=
  ⟨⟨h.counted.avail, h.counted.served⟩, h.quiet, h.used, h.st⟩

/-- the driver will see that the index has changed, or has seen it -/
def Noticing (u : BitVec 16) : Pc → Prop
  | .poll last _ => last = u
  | .isr | .copyOut _ | .loadStatus => True
  | .ret r => r = 0
  | _ => False

/-- the driver takes the index after the completion for the one before it -/
def Missing (u : BitVec 16) : Pc → Prop
  | .notify | .loadLast => True
  | .poll last _ => last = u + 1
  | .ret r => r = -5
  | _ => False

theorem succ_ne_self (u : BitVec 16) : u + 1 ≠ u := by bv_omega

theorem noticing_drive {u : BitVec 16} (h : s.Completed u) (hpc : Noticing u s.driver.pc) :
    (s.drive cfg).Completed u ∧ Noticing u (s.drive cfg).driver.pc := by
  unfold Blk.drive
  cases hs : s.driver.pc with
  | poll last spins =>
    rw [hs] at hpc
    obtain rfl : last = u := hpc
    dsimp only
    rw [if_neg (by rw [h.used]; exact succ_ne_self last)]
    exact ⟨h.goto _, trivial⟩
  | isr => dsimp only; split_ifs <;> exact ⟨h.goto _, trivial⟩
  | copyOut i =>
    dsimp only
    split_ifs
    · exact ⟨⟨⟨h.counted.avail, h.counted.served⟩, h.quiet, h.used, h.st⟩, trivial⟩
    · exact ⟨h.goto _, trivial⟩
  | loadStatus => exact ⟨h.goto _, if_pos h.st⟩
  | ret r => exact ⟨h, hpc⟩
  | idle | store | copyIn | loadAvail | storeRing | storeAvail | notify | loadLast => rw [hs] at hpc; exact hpc.elim

theorem missing_drive {u : BitVec 16} (h : s.Completed u) (hpc : Missing u s.driver.pc) :
    (s.drive cfg).Completed u ∧ Missing u (s.drive cfg).driver.pc := by
  unfold Blk.drive
  cases hs : s.driver.pc with
  | notify => exact ⟨h.goto _, trivial⟩
  | loadLast => exact ⟨h.goto _, h.used⟩
  | poll last spins =>
    rw [hs] at hpc
    have hlast : last = u + 1 := hpc
    dsimp only
    rw [if_pos (h.used.trans hlast.symm)]
    split_ifs
    · exact ⟨h.goto _, rfl⟩
    · exact ⟨h.goto _, hlast⟩
  | ret r => exact ⟨h, hpc⟩
  | idle | store | copyIn | loadAvail | storeRing | storeAvail | isr | copyOut | loadStatus =>
    rw [hs] at hpc; exact hpc.elim

/-- after the completion only the driver does anything -/
theorem acts_completed {u : BitVec 16} {P : Pc → Prop}
    (hdrive : ∀ s : Blk, s.Completed u → P s.driver.pc → (s.drive cfg).Completed u ∧ P (s.drive cfg).driver.pc)
    {l : List Act} (h : s.Completed u) (hpc : P s.driver.pc) :
    (s.acts cfg l).Completed u ∧ P (s.acts cfg l).driver.pc := by
  refine foldlRecOn l (act cfg) (motive := fun s => s.Completed u ∧ P s.driver.pc) ⟨h, hpc⟩ fun s h a _ => ?_
  by_cases ha : a = .drive
  · subst ha
    exact hdrive s h.1 h.2
  · rw [quiet_act h.1.counted h.1.quiet ha]
    exact h

/-- the device completes the driver's request, without an error -/
theorem Stage.complete {u : BitVec 16} (hc : s.Counted) (h : s.Stage cfg u) {j : Job} (hjob : s.device.job = some j)
    (hstatus : j.status = some 0#8) : s.complete.Completed u := by
  have hcomplete : s.complete = { s with
      dma := { s.dma with usedIdx := s.dma.usedIdx + 1 }, device := { s.device with job := none } } := by
    simp only [Blk.complete, hjob, hstatus, ne_eq, reduceCtorEq, not_false_eq_true, if_true]
  rw [hcomplete]
  obtain ⟨htaken, hused, hmine⟩ := h.serves hjob
  exact ⟨⟨hc.avail, hc.served⟩, ⟨rfl, htaken⟩, congrArg (· + 1) hused, (hmine.status _ hstatus).1⟩

/-- at the completion the driver polls for it, or is about to read `last` -/
theorem During.completed {u : BitVec 16} (h : s.During cfg u) (hpc : ¬ s.Free) {j : Job} (hjob : s.device.job = some j)
    (hstatus : j.status = some 0#8) :
    s.complete.Completed u ∧ (s.Polling ∧ Noticing u s.driver.pc ∨ ¬ s.Polling ∧ Missing u s.driver.pc) := by
  obtain ⟨hc, hat⟩ := h
  have hbusy : ¬ s.Quiet := fun hq => by rw [hq.1] at hjob; cases hjob
  rw [Polling]
  rw [Free] at hpc
  cases hs : s.driver.pc with
  | idle => exact absurd (.inl hs) hpc
  | ret r => exact absurd (.inr ⟨r, hs⟩) hpc
  | store rest => rw [hs] at hat; exact absurd hat.1 hbusy
  | copyIn i => rw [hs] at hat; exact absurd hat.1.quiet hbusy
  | loadAvail => rw [hs] at hat; exact absurd hat.1.quiet hbusy
  | storeRing idx => rw [hs] at hat; exact absurd hat.1.quiet hbusy
  | storeAvail idx => rw [hs] at hat; exact absurd hat.1.quiet hbusy
  | isr => rw [hs] at hat; exact absurd hat.quiet hbusy
  | copyOut i => rw [hs] at hat; exact absurd hat.1.quiet hbusy
  | loadStatus => rw [hs] at hat; exact absurd hat.1.quiet hbusy
  | notify => rw [hs] at hat; exact ⟨Stage.complete hc hat hjob hstatus, .inr ⟨by simp, trivial⟩⟩
  | loadLast => rw [hs] at hat; exact ⟨Stage.complete hc hat hjob hstatus, .inr ⟨by simp, trivial⟩⟩
  | poll last spins =>
    rw [hs] at hat
    refine ⟨Stage.complete hc hat.1 hjob hstatus, .inl ⟨⟨last, spins, rfl⟩, ?_⟩⟩
    exact hat.2.resolve_right fun h => hbusy h.2.quiet

/-- the completion is not the driver's -/
theorem complete_driver (s : Blk) : s.complete.driver = s.driver := @act_driver ⟨0, 1⟩ s .complete (by decide)

/-- **Completions.** Let a request find no earlier one outstanding, after any calls, and let the device complete it
without an error before the driver has given up. However their accesses come, the driver returns. It returns 0, with the
request's data, just when the used index was counted up after the driver's read of `last`. -/
theorem completion_seen_iff (cfg : Config) (disk : Disk) (history : List Event) (type : BitVec 32) (sector : U64)
    (data : Sector) (before after : List Act) {s₀ s : Blk} (h₀ : (start disk).run cfg history = s₀) (hquiet : s₀.Quiet)
    (hs : (s₀.doRequest cfg type sector data).acts cfg before = s) (hrunning : ¬ s.Free) {j : Job}
    (hjob : s.device.job = some j) (hstatus : j.status = some 0#8) (hlong : s.driver.pc.left ≤ after.count .drive) :
    ∃ r, (s.complete.acts cfg after).driver.pc = .ret r ∧
      ((r = 0 ∧ (s.complete.acts cfg after).Fulfilled) ↔ s.Polling) := by
  have hc₀ : s₀.Counted := h₀ ▸ run_counted cfg disk history
  have hduring : s.During cfg s₀.dma.usedIdx := hs ▸ acts_during (during_doRequest hc₀ hquiet type sector data)
  have hafter : (s.complete.acts cfg after).During cfg s₀.dma.usedIdx := acts_during (hduring.act .complete)
  obtain ⟨hcompleted, hpc⟩ := hduring.completed hrunning hjob hstatus
  have hfree : (s.complete.acts cfg after).Free := acts_return (by rw [complete_driver]; exact hlong)
  rcases hpc with ⟨hpoll, hnotice⟩ | ⟨hpoll, hmiss⟩
  · have hend := (@acts_completed cfg s.complete _ _ (fun _ => noticing_drive) after hcompleted
      (by rw [complete_driver]; exact hnotice)).2
    rcases hfree with h | ⟨r, h⟩
    · rw [h] at hend
      exact hend.elim
    · rw [h] at hend
      obtain rfl : r = 0 := hend
      have hat := hafter.here
      rw [h] at hat
      exact ⟨0, h, fun _ => hpoll, fun _ => ⟨rfl, (hat rfl).2⟩⟩
  · have hend := (@acts_completed cfg s.complete _ _ (fun _ => missing_drive) after hcompleted
      (by rw [complete_driver]; exact hmiss)).2
    rcases hfree with h | ⟨r, h⟩
    · rw [h] at hend
      exact hend.elim
    · rw [h] at hend
      obtain rfl : r = -5 := hend
      exact ⟨-5, h, fun h0 => absurd h0.1 (by decide), fun hp => absurd hp hpoll⟩

/-- up to the read of `last`; the device moves the sector -/
def untilLast : List Act := List.replicate 20 .drive ++ .fetch :: List.replicate 512 .move ++ [.finish 0]

/-- a read of sector 7 -/
def atLoadLast : Blk :=
  ((start numbered).doRequest ⟨0x100000, 256⟩ 0#32 7 (fun _ => 0)).acts ⟨0x100000, 256⟩ untilLast

/-- **A completion that comes too soon.** Nothing was outstanding, and the device completes the request right after it
is notified: the driver gives up. -/
theorem early_completion_lost : (start numbered).Quiet ∧ atLoadLast.driver.pc = .loadLast ∧
    atLoadLast.device.job = some ⟨0#32, 7, true, 512, some 0⟩ ∧
    (atLoadLast.complete.acts ⟨0x100000, 256⟩ (List.replicate (spinLimit + 2) .drive)).driver.pc = .ret (-5) := by
  have hstep : (atLoadLast.complete.drive ⟨0x100000, 256⟩).driver.pc = .poll 1 0 := by decide +kernel
  have hused : (atLoadLast.complete.drive ⟨0x100000, 256⟩).dma.usedIdx = 1 := by decide +kernel
  have hend := @acts_timeout ⟨0x100000, 256⟩ _ _ _ _ (Nat.zero_add spinLimit) hstep hused
  refine ⟨⟨rfl, rfl⟩, by decide +kernel, by decide +kernel, ?_⟩
  have hfirst : atLoadLast.complete.acts ⟨0x100000, 256⟩ (List.replicate (spinLimit + 2) .drive) =
      (atLoadLast.complete.drive ⟨0x100000, 256⟩).acts ⟨0x100000, 256⟩ (List.replicate (spinLimit + 1) .drive) := by
    rw [List.replicate_succ]
    exact List.foldl_cons ..
  rw [hfirst, hend]
  exact goto_pc _ _

theorem acts_append (cfg : Config) (s : Blk) (l m : List Act) : s.acts cfg (l ++ m) = (s.acts cfg l).acts cfg m :=
  foldl_append

/-- the same a step later -/
theorem completion_seen_polling : ∃ s : Blk, s.driver.pc = .poll 0 0 ∧
    ∃ t : Blk, t.driver.pc = .ret 0 ∧
    s.complete.acts ⟨0x100000, 256⟩ (List.replicate (spinLimit + 516) .drive) = t := by
  have hs := acts_append ⟨0x100000, 256⟩
    ((start numbered).doRequest ⟨0x100000, 256⟩ 0#32 7 (fun _ => 0)) untilLast [.drive]
  have hpc : (atLoadLast.acts ⟨0x100000, 256⟩ [.drive]).driver.pc = .poll 0 0 := by decide +kernel
  have hjob : (atLoadLast.acts ⟨0x100000, 256⟩ [.drive]).device.job = some ⟨0#32, 7, true, 512, some 0⟩ := by
    decide +kernel
  rw [← atLoadLast] at hs
  obtain ⟨s, hs'⟩ : ∃ s, atLoadLast.acts ⟨0x100000, 256⟩ [.drive] = s := ⟨_, rfl⟩
  rw [hs'] at hs hpc hjob
  obtain ⟨r, hr, hiff⟩ := completion_seen_iff ⟨0x100000, 256⟩ numbered [] 0#32 7 (fun _ => 0) _
    (List.replicate (spinLimit + 516) .drive) rfl ⟨rfl, rfl⟩ hs (by rw [free_iff, hpc]; simp [Pc.left]) hjob rfl
    (by rw [hpc, List.count_replicate_self]; simp [Pc.left, sectorSize])
  obtain rfl : r = 0 := (hiff.2 ⟨0, 0, hpc⟩).1
  exact ⟨s, hpc, _, hr, rfl⟩

end Blk

end Uix.Virtio
