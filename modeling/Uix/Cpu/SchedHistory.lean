/-
Histories of processes: what `wait4` delivers, over the log of everything that happened.

- `Hist`: pids number the tasks in the order of their creation; the log and the task structures agree on who forked,
  exited and was reaped.
- `exit_status_delivered_once`: every value `wait4` returned is the pid of a child of the caller that had exited and
  that no earlier `wait4` returned, and the status word is that child's exit status; and all pids are distinct.
- `pid_given_twice`: `wait4` is told to store the status to `next_pid`.
-/
import Uix.Cpu.SchedWait

namespace Uix.Sched

open Machine Links List Function

/-! ## The log -/

/-- what a `wait4` that returned `r` to `t` delivered, given what happened before -/
def Delivers (older : List Event) (t : ℕ) (want r : U64) (stored : Option U64) : Prop :=
  ∃ c arg, Event.forked t c ∈ older ∧ Event.enqueued c r ∈ older ∧ Event.exited c arg ∈ older ∧
    (∀ arg', Event.exited c arg' ∈ older → arg' = arg) ∧ (want = -1 ∨ r = want) ∧
    (∀ t' want' stored', Event.waited t' want' r stored' ∉ older) ∧
    ∀ w, stored = some w → w = (arg.setWidth 32).signExtend 64

/-- every `wait4` in the log delivered -/
def Delivered : List Event → Prop
  | [] => True
  | .waited t want r stored :: older => Delivers older t want r stored ∧ Delivered older
  | _ :: older => Delivered older

theorem Delivered.split {log newer older : List Event} {t : ℕ} {want r : U64} {stored : Option U64} (h : Delivered log)
    (hs : log = newer ++ .waited t want r stored :: older) : Delivers older t want r stored := by
  induction newer generalizing log with
  | nil =>
    subst hs
    exact h.1
  | cons e newer ih =>
    subst hs
    cases e with
    | waited => exact ih h.2 rfl
    | _ => exact ih (show Delivered (newer ++ _ :: older) from h) rfl

/-- the tasks enqueued, with their pids -/
def enqueued : List Event → List (ℕ × U64)
  | [] => []
  | .enqueued t pid :: older => (t, pid) :: enqueued older
  | _ :: older => enqueued older

theorem mem_enqueued {log : List Event} {t : ℕ} {pid : U64} : (t, pid) ∈ enqueued log ↔ Event.enqueued t pid ∈ log := by
  induction log with
  | nil => simp [enqueued]
  | cons e log ih =>
    cases e with
    | enqueued u p => simp [enqueued, ih]
    | _ => simp [enqueued, ih]

/-! ## Pids -/

def pidOf (T : ℕ → Option Task) (t : ℕ) : U64 := ((T t).map Task.pid).getD 0

theorem pidOf_some {T : ℕ → Option Task} {t : ℕ} {x : Task} (h : T t = some x) : pidOf T t = x.pid := by
  rw [pidOf, h]
  rfl

/-- the first `n` pids, the newest first -/
def pidsBelow (n : ℕ) : List U64 := ((List.range n).map fun k => BitVec.ofNat 64 (k + 1)).reverse

theorem pidsBelow_succ (n : ℕ) : pidsBelow (n + 1) = BitVec.ofNat 64 (n + 1) :: pidsBelow n := by
  simp [pidsBelow, range_succ]

theorem pidsBelow_nodup {n : ℕ} (hn : n < 2 ^ 64) : (pidsBelow n).Nodup ∧ 0 ∉ pidsBelow n := by
  have key : ∀ k, k < n → (BitVec.ofNat 64 (k + 1)).toNat = k + 1 := fun k hk => by
    rw [BitVec.toNat_ofNat, Nat.mod_eq_of_lt (by omega)]
  constructor
  · refine nodup_reverse.2 (List.Nodup.map_on (fun a ha b hb he => ?_) nodup_range)
    have := congrArg BitVec.toNat he
    rw [key a (mem_range.1 ha), key b (mem_range.1 hb)] at this
    omega
  · intro hm
    obtain ⟨k, hk, he⟩ := mem_map.1 (mem_reverse.1 hm)
    have := congrArg BitVec.toNat he
    rw [key k (mem_range.1 hk)] at this
    simp at this

/-! ## Histories -/

/-- the tasks `born` so far, newest first -/
structure Born (s : Sched) (born : List ℕ) : Prop where
  all : ∀ t, t ∈ born ↔ (s.tasks t).isSome
  nodup : born.Nodup
  pids : born.map (pidOf s.tasks) = pidsBelow born.length
  nextPid : s.nextPid = BitVec.ofNat 64 (born.length + 1)
  forks : ∀ u y, s.tasks u = some y → y.ppid ≠ 0 →
    Event.enqueued u y.pid ∈ s.log ∧ ∃ t x, s.tasks t = some x ∧ x.pid = y.ppid ∧ Event.forked t u ∈ s.log
  enqs : ∀ u p, Event.enqueued u p ∈ s.log → ∃ y, s.tasks u = some y ∧ y.pid = p
  enqOnce : ((enqueued s.log).map Prod.fst).Nodup

/-- the log agrees with how they ended -/
structure Hist (s : Sched) (born : List ℕ) : Prop extends Born s born where
  exits : ∀ u y, s.tasks u = some y → y.state = .zombie → ∃ arg, Event.exited u arg ∈ s.log ∧
    y.exitStatus = arg.setWidth 32
  ended : ∀ u arg, Event.exited u arg ∈ s.log → ∃ y, s.tasks u = some y ∧ (y.state = .zombie ∨ y.state = .dead)
  once : ∀ u a b, Event.exited u a ∈ s.log → Event.exited u b ∈ s.log → a = b
  waits : ∀ t want r st, Event.waited t want r st ∈ s.log → ∃ u y, s.tasks u = some y ∧ y.pid = r ∧ y.state = .dead
  good : Delivered s.log

variable {boot : ℕ} {s s' : Sched} {q bl born : List ℕ} {t : ℕ} {x y : Task}

theorem Hist.pid_inj (h : Hist s born) (hl : born.length < 2 ^ 64) {u : ℕ} (hx : s.tasks t = some x)
    (hy : s.tasks u = some y) (he : x.pid = y.pid) : t = u := by
  have hnd : (born.map (pidOf s.tasks)).Nodup := h.pids ▸ (pidsBelow_nodup hl).1
  refine inj_on_of_nodup_map hnd ((h.all t).2 (by simp [hx])) ((h.all u).2 (by simp [hy])) ?_
  rw [pidOf_some hx, pidOf_some hy, he]

theorem Hist.pid_ne_zero (h : Hist s born) (hl : born.length < 2 ^ 64) (hx : s.tasks t = some x) :
    x.pid ≠ 0 := fun he => by
  have hm : pidOf s.tasks t ∈ born.map (pidOf s.tasks) := mem_map_of_mem ((h.all t).2 (by simp [hx]))
  rw [h.pids, pidOf_some hx, he] at hm
  exact (pidsBelow_nodup hl).2 hm

/-- what a task is born with -/
def Kin (x x' : Task) : Prop := x'.pid = x.pid ∧ x'.ppid = x.ppid

theorem Born.kin (h : Born s born) (hk : Related Kin s.tasks s'.tasks) (hnp : s'.nextPid = s.nextPid)
    (hmem : ∀ e ∈ s.log, e ∈ s'.log) (henq : enqueued s'.log = enqueued s.log) : Born s' born where
  all t := (h.all t).trans hk.isSome
  nodup := h.nodup
  pids := by
    rw [← h.pids]
    refine map_congr_left fun t ht => ?_
    obtain ⟨x, hx⟩ := Option.isSome_iff_exists.1 ((h.all t).1 ht)
    obtain ⟨x', hx', hp, -⟩ := hk.after hx
    rw [pidOf_some hx, pidOf_some hx', hp]
  nextPid := hnp.trans h.nextPid
  forks u y' hy' hp := by
    obtain ⟨y, hy, hpid, hppid⟩ := hk.before hy'
    obtain ⟨he, t, x, hx, hxp, hf⟩ := h.forks u y hy (hppid ▸ hp)
    obtain ⟨x', hx', hxpid, -⟩ := hk.after hx
    exact ⟨hpid ▸ hmem _ he, t, x', hx', by rw [hxpid, hxp, hppid], hmem _ hf⟩
  enqs u p he := by
    obtain ⟨y, hy, hp⟩ := h.enqs u p (mem_enqueued.1 (henq ▸ mem_enqueued.2 he))
    obtain ⟨y', hy', hpid, -⟩ := hk.after hy
    exact ⟨y', hy', hpid.trans hp⟩
  enqOnce := by rw [henq]; exact h.enqOnce

theorem Life.kin (h : Life x y) : Kin x y := ⟨h.pid, h.ppid⟩

/-- tasks that are moved about have the same history -/
theorem Hist.moves (h : Hist s born) (hm : Related Life s.tasks s'.tasks) (hnp : s'.nextPid = s.nextPid)
    (hlog : s'.log = s.log) : Hist s' born where
  toBorn := h.toBorn.kin (fun t => rel_mono (fun _ _ h => h.kin) (hm t)) hnp (by simp [hlog]) (by rw [hlog])
  exits u y' hy' hz := by
    obtain ⟨y, hy, hl⟩ := hm.before hy'
    rw [hlog, hl.exitStatus]
    exact h.exits u y hy (hl.zombie.1 hz)
  ended u arg he := by
    obtain ⟨y, hy, hs⟩ := h.ended u arg (hlog ▸ he)
    obtain ⟨y', hy', hl⟩ := hm.after hy
    exact ⟨y', hy', hs.imp hl.zombie.2 hl.dead.2⟩
  once u a b ha hb := h.once u a b (hlog ▸ ha) (hlog ▸ hb)
  waits t want r st hw := by
    obtain ⟨u, y, hy, hr, hd⟩ := h.waits t want r st (hlog ▸ hw)
    obtain ⟨y', hy', hl⟩ := hm.after hy
    exact ⟨u, y', hy', hl.pid.trans hr, hl.dead.2 hd⟩
  good := by rw [hlog]; exact h.good

theorem Hist.creates (h : Hist s born) (hf : s.tasks t = none) (hc : Created s s' t x) {evs : List Event}
    (hlog : s'.log = evs ++ s.log)
    (hev : (x.ppid = 0 ∧ evs = [.enqueued t s.nextPid]) ∨
      ∃ p, s.tasks s.current = some p ∧ x.ppid = p.pid ∧ evs = [.forked s.current t, .enqueued t s.nextPid]) :
    Hist s' (t :: born) := by
  have hnew : s'.tasks t = some x := by rw [hc.tasks, update_self]
  have hold : ∀ u, u ≠ t → s'.tasks u = s.tasks u := fun u hu => by rw [hc.tasks, update_of_ne hu]
  have hkeep : ∀ u y, s.tasks u = some y → s'.tasks u = some y := fun u y hy =>
    (hold u fun e => by rw [e, hf] at hy; simp at hy).trans hy
  have hnt : t ∉ born := fun hm => by
    have := (h.all t).1 hm
    simp [hf] at this
  have henq : Event.enqueued t s.nextPid ∈ evs ∧ ∀ u p, Event.enqueued u p ∈ evs → u = t ∧ p = s.nextPid := by
    rcases hev with ⟨_, rfl⟩ | ⟨p, _, _, rfl⟩ <;> simp
  have hmem : ∀ e, e ∈ s.log → e ∈ s'.log := fun e he => by rw [hlog]; exact mem_append_right _ he
  have hex : ∀ u arg, Event.exited u arg ∈ s'.log → Event.exited u arg ∈ s.log := fun u arg he => by
    rw [hlog] at he
    rcases hev with ⟨_, rfl⟩ | ⟨p, _, _, rfl⟩ <;> simpa using he
  refine ⟨⟨fun u => ?_, nodup_cons.2 ⟨hnt, h.nodup⟩, ?_, ?_, fun u y hy hp => ?_, fun u p he => ?_, ?_⟩,
    fun u y hy hz => ?_,
    fun u arg he => ?_, fun u a b ha hb => h.once u a b (hex u a ha) (hex u b hb), fun v want r st hw => ?_, ?_⟩
  · by_cases hu : u = t
    · simp [hu, hnew]
    · rw [hold u hu, ← h.all u]
      simp [hu]
  · rw [map_cons, length_cons, pidsBelow_succ, pidOf_some hnew, hc.pid, h.nextPid, ← h.pids]
    refine congrArg _ (map_congr_left fun u hu => ?_)
    rw [pidOf, pidOf, hold u (ne_of_mem_of_not_mem hu hnt)]
  · rw [hc.nextPid, h.nextPid, length_cons, BitVec.ofNat_add (born.length + 1) 1]
    rfl
  · by_cases hu : u = t
    · subst hu
      obtain rfl := Option.some.inj (hnew.symm.trans hy)
      rcases hev with ⟨h0, _⟩ | ⟨p, hp1, hp2, rfl⟩
      · exact absurd h0 hp
      · rw [hlog, hc.pid]
        exact ⟨by simp, s.current, p, hkeep _ p hp1, hp2.symm, by simp⟩
    · obtain ⟨he, v, z, hz, hpid, hfk⟩ := h.forks u y (hold u hu ▸ hy) hp
      exact ⟨hmem _ he, v, z, hkeep v z hz, hpid, hmem _ hfk⟩
  · rw [hlog] at he
    rcases mem_append.1 he with he | he
    · obtain ⟨rfl, rfl⟩ := henq.2 u p he
      exact ⟨x, hnew, hc.pid⟩
    · obtain ⟨y, hy, hp⟩ := h.enqs u p he
      exact ⟨y, hkeep u y hy, hp⟩
  · have hnot : t ∉ (enqueued s.log).map Prod.fst := fun hm => by
      obtain ⟨⟨u, p⟩, hup, rfl⟩ := mem_map.1 hm
      obtain ⟨y, hy, _⟩ := h.enqs u p (mem_enqueued.1 hup)
      rw [hf] at hy
      simp at hy
    rw [hlog]
    rcases hev with ⟨_, rfl⟩ | ⟨p, _, _, rfl⟩ <;> exact nodup_cons.2 ⟨hnot, h.enqOnce⟩
  · have hu : u ≠ t := fun e => by
      subst e
      obtain rfl := Option.some.inj (hnew.symm.trans hy)
      rw [hc.state] at hz
      simp at hz
    obtain ⟨arg, he, hst⟩ := h.exits u y (hold u hu ▸ hy) hz
    exact ⟨arg, hmem _ he, hst⟩
  · obtain ⟨y, hy, hs⟩ := h.ended u arg (hex u arg he)
    exact ⟨y, hkeep u y hy, hs⟩
  · have hw' : Event.waited v want r st ∈ s.log := by
      rw [hlog] at hw
      rcases hev with ⟨_, rfl⟩ | ⟨p, _, _, rfl⟩ <;> simpa using hw
    obtain ⟨u, y, hy, hr, hd⟩ := h.waits v want r st hw'
    exact ⟨u, y, hkeep u y hy, hr, hd⟩
  · rw [hlog]
    rcases hev with ⟨_, rfl⟩ | ⟨p, _, _, rfl⟩ <;> exact h.good

/-- one task `c` goes on to `y`, everyone else is moved about -/
structure Turns (s s' : Sched) (c : ℕ) (x y : Task) : Prop where
  before : s.tasks c = some x
  after : s'.tasks c = some y
  pid : y.pid = x.pid
  ppid : y.ppid = x.ppid
  others : ∀ u, u ≠ c → Option.Rel Life (s.tasks u) (s'.tasks u)

section Turns

variable {c : ℕ}

theorem Turns.back (h : Turns s s' c x y) {u : ℕ} {b : Task} (hb : s'.tasks u = some b) :
    ∃ a, s.tasks u = some a ∧ b.pid = a.pid ∧ b.ppid = a.ppid ∧ (u = c ∧ a = x ∧ b = y ∨ u ≠ c ∧ Life a b) := by
  by_cases hu : u = c
  · subst hu
    obtain rfl := Option.some.inj (h.after.symm.trans hb)
    exact ⟨x, h.before, h.pid, h.ppid, Or.inl ⟨rfl, rfl, rfl⟩⟩
  · obtain ⟨a, ha, hl⟩ := rel_before (h.others u hu) hb
    exact ⟨a, ha, hl.pid, hl.ppid, Or.inr ⟨hu, hl⟩⟩

theorem Turns.forth (h : Turns s s' c x y) {u : ℕ} {a : Task} (ha : s.tasks u = some a) :
    ∃ b, s'.tasks u = some b ∧ b.pid = a.pid ∧ b.ppid = a.ppid ∧ (u = c ∧ a = x ∧ b = y ∨ u ≠ c ∧ Life a b) := by
  by_cases hu : u = c
  · subst hu
    obtain rfl := Option.some.inj (h.before.symm.trans ha)
    exact ⟨y, h.after, h.pid, h.ppid, Or.inl ⟨rfl, rfl, rfl⟩⟩
  · obtain ⟨b, hb, hl⟩ := rel_after (h.others u hu) ha
    exact ⟨b, hb, hl.pid, hl.ppid, Or.inr ⟨hu, hl⟩⟩

theorem Turns.kin (h : Turns s s' c x y) : Related Kin s.tasks s'.tasks := fun u => by
  by_cases hu : u = c
  · rw [hu, h.before, h.after]
    exact .some ⟨h.pid, h.ppid⟩
  · exact rel_mono (fun _ _ hl => hl.kin) (h.others u hu)

/-- a running task exits -/
theorem Hist.exit (h : Hist s born) (ht : Turns s s' c x y) (hx : x.state = .running) (hy : y.state = .zombie)
    {arg : U64}
    (hst : y.exitStatus = arg.setWidth 32) (hnp : s'.nextPid = s.nextPid) (hlog : s'.log = .exited c arg :: s.log) :
    Hist s' born := by
  have hmem : ∀ e, e ∈ s.log → e ∈ s'.log := fun e he => by rw [hlog]; exact mem_cons_of_mem _ he
  have hfirst : ∀ a, Event.exited c a ∉ s.log := fun a he => by
    obtain ⟨z, hz, hs⟩ := h.ended c a he
    obtain rfl := Option.some.inj (ht.before.symm.trans hz)
    simp [hx] at hs
  refine ⟨h.toBorn.kin ht.kin hnp hmem (by rw [hlog]; rfl), fun u b hb hz => ?_, fun u a he => ?_,
    fun u a b ha hb => ?_, fun v want r st hw => ?_, ?_⟩
  · obtain ⟨a, ha, _, _, ⟨rfl, rfl, rfl⟩ | ⟨_, hl⟩⟩ := ht.back hb
    · exact ⟨arg, by simp [hlog], hst⟩
    · obtain ⟨arg', he, hs⟩ := h.exits u a ha (hl.zombie.1 hz)
      exact ⟨arg', hmem _ he, hl.exitStatus.trans hs⟩
  · rw [hlog] at he
    rcases mem_cons.1 he with he | he
    · obtain ⟨rfl, rfl⟩ : u = c ∧ a = arg := by simpa using he
      exact ⟨y, ht.after, Or.inl hy⟩
    · obtain ⟨z, hz, hs⟩ := h.ended u a he
      obtain ⟨b, hb, _, _, ⟨rfl, rfl, rfl⟩ | ⟨_, hl⟩⟩ := ht.forth hz
      · exact ⟨b, hb, Or.inl hy⟩
      · exact ⟨b, hb, hs.imp hl.zombie.2 hl.dead.2⟩
  · rw [hlog] at ha hb
    simp only [mem_cons, Event.exited.injEq] at ha hb
    rcases ha with ⟨rfl, rfl⟩ | ha <;> rcases hb with ⟨hu, rfl⟩ | hb
    · rfl
    · exact absurd hb (hfirst b)
    · exact absurd (hu ▸ ha) (hfirst a)
    · exact h.once u a b ha hb
  · rw [hlog] at hw
    obtain ⟨u, z, hz, hr, hd⟩ := h.waits v want r st (by simpa using hw)
    obtain ⟨b, hb, hpid, _, ⟨rfl, rfl, rfl⟩ | ⟨_, hl⟩⟩ := ht.forth hz
    · simp [hx] at hd
    · exact ⟨u, b, hb, hpid.trans hr, hl.dead.2 hd⟩
  · rw [hlog]
    exact h.good

/-- a zombie is reaped by its parent `t` -/
theorem Hist.reap (h : Hist s born) (hl : born.length < 2 ^ 64) (ht : Turns s s' c x y) (hx : x.state = .zombie)
    (hy : y.state = .dead) {p : Task} {want : U64} {stored : Option U64} (hp : s.tasks t = some p)
    (hpp : x.ppid = p.pid)
    (hwant : want = -1 ∨ x.pid = want) (hst : ∀ w, stored = some w → w = x.exitStatus.signExtend 64)
    (hnp : s'.nextPid = s.nextPid) (hlog : s'.log = .waited t want x.pid stored :: s.log) : Hist s' born := by
  have hmem : ∀ e, e ∈ s.log → e ∈ s'.log := fun e he => by rw [hlog]; exact mem_cons_of_mem _ he
  have hdel : Delivers s.log t want x.pid stored := by
    obtain ⟨arg, he, hs⟩ := h.exits c x ht.before hx
    obtain ⟨henq, u, z, hz, hzp, hf⟩ := h.forks c x ht.before (hpp ▸ h.pid_ne_zero hl hp)
    -- pids are distinct, so the task with the pid of the parent is the parent
    obtain rfl : u = t := h.pid_inj hl hz hp (hzp.trans hpp)
    refine ⟨c, arg, hf, henq, he, fun a ha => h.once c a arg ha he, hwant, fun t' want' st' hw => ?_, fun w hw => ?_⟩
    · obtain ⟨v, d, hd, hr, hds⟩ := h.waits t' want' x.pid st' hw
      obtain rfl := h.pid_inj hl hd ht.before hr
      obtain rfl := Option.some.inj (hd.symm.trans ht.before)
      simp [hx] at hds
    · rw [hst w hw, hs]
  refine ⟨h.toBorn.kin ht.kin hnp hmem (by rw [hlog]; rfl), fun u b hb hz => ?_, fun u a he => ?_,
    fun u a b ha hb => ?_, fun v want' r st hw => ?_, ?_⟩
  · obtain ⟨a, ha, _, _, ⟨rfl, rfl, rfl⟩ | ⟨_, hl⟩⟩ := ht.back hb
    · simp [hy] at hz
    · obtain ⟨arg', he, hs⟩ := h.exits u a ha (hl.zombie.1 hz)
      exact ⟨arg', hmem _ he, hl.exitStatus.trans hs⟩
  · rw [hlog] at he
    obtain ⟨z, hz, hs⟩ := h.ended u a (by simpa using he)
    obtain ⟨b, hb, _, _, ⟨rfl, rfl, rfl⟩ | ⟨_, hl⟩⟩ := ht.forth hz
    · exact ⟨b, hb, Or.inr hy⟩
    · exact ⟨b, hb, hs.imp hl.zombie.2 hl.dead.2⟩
  · rw [hlog] at ha hb
    exact h.once u a b (by simpa using ha) (by simpa using hb)
  · rw [hlog] at hw
    rcases mem_cons.1 hw with hw | hw
    · obtain ⟨_, _, rfl, _⟩ : v = t ∧ want' = want ∧ r = x.pid ∧ st = stored := by simpa using hw
      exact ⟨c, y, ht.after, ht.pid, hy⟩
    · obtain ⟨u, z, hz, hr, hd⟩ := h.waits v want' r st hw
      obtain ⟨b, hb, hpid, _, ⟨rfl, rfl, rfl⟩ | ⟨_, hl⟩⟩ := ht.forth hz
      · exact ⟨u, b, hb, hpid.trans hr, hy⟩
      · exact ⟨u, b, hb, hpid.trans hr, hl.dead.2 hd⟩
  · rw [hlog]
    exact ⟨hdel, h.good⟩

end Turns

/-! ## Over a run -/

theorem Creates.hist {ppid : U64} {evs : List Event} (hc : Creates s s' q bl t ppid evs) (h : Hist s born)
    (hf : Fresh s t) (hev : (ppid = 0 ∧ evs = [.enqueued t s.nextPid]) ∨
      ∃ x, s.tasks s.current = some x ∧ ppid = x.pid ∧ evs = [.forked s.current t, .enqueued t s.nextPid]) :
    ∃ born', Hist s' born' := by
  rcases hc with rfl | ⟨h0, rfl⟩ | ⟨h0, x, hc, rfl, hlog, _⟩
  · exact ⟨born, h⟩
  · refine ⟨born, h.moves (related_of Life.refl fun u => Or.inl ?_) rfl rfl⟩
    by_cases hu : u = t
    · simp [kfreeTask, hu, (hf.resolve_left h0).1]
    · simp [kfreeTask, kzalloc, hu]
  · exact ⟨t :: born, h.creates (hf.resolve_left h0).1 hc hlog hev⟩

/-- a task goes to sleep -/
theorem slept_life (hx : s.tasks s.current = some x) (hxs : x.state = .running) {want status : U64}
    (ht : s'.tasks = update s.tasks s.current
      (some { x with state := .blocked, blockOn := 0, pc := .wait4 want status })) : Related Life s.tasks s'.tasks := by
  refine related_of Life.refl fun u => ?_
  by_cases hu : u = s.current
  · subst hu
    exact Or.inr ⟨x, { x with state := .blocked, blockOn := 0, pc := .wait4 want status }, hx,
      by rw [ht, update_self], rfl, rfl, rfl, by simp [hxs], by simp [hxs]⟩
  · exact Or.inl (by rw [ht, update_of_ne hu])

theorem Effect.hist {o : Op} (h : Effect o s s' bl) (hp : Placed boot s q bl) (hh : Hist s born) :
    ∃ born', Hist s' born' := by
  have hlen : born.length < 2 ^ 64 := length_lt_fuel hh.nodup fun u hu => hp.addr u ((hh.all u).1 hu)
  cases h with
  | moved hm hr => exact ⟨born, hh.moves (Moves.life hm) hr.nextPid hr.log⟩
  | created t q ppid evs hf hc hev => exact hc.hist hh hf hev
  | exited s1 x rdi hx hxs hpc ht hz hna hat hnp hlog hm hr =>
    obtain ⟨hcur, hothers⟩ := exited_kept hp hx hxs _ ht
    have hturn : Turns s s1 s.current x { x with exitStatus := rdi.setWidth 32, state := .zombie } :=
      ⟨hx, hcur, rfl, rfl, fun u hu => rel_mono (fun _ _ hk => hk.toLife) (hothers u hu)⟩
    exact ⟨born, (hh.exit hturn hxs rfl rfl hnp hlog).moves (Moves.life hm) hr.nextPid hr.log⟩
  | reaped z x y want status hx hxs hy hrp ht hz hna hat hnp hlog =>
    have hne : z ≠ s.current := fun e => by
      rw [e, hx, Option.some.injEq] at hy
      have := hrp.1
      simp [← hy, hxs] at this
    have hturn : Turns s s' z y { y with state := .dead } := by
      refine ⟨hy, by rw [ht, update_of_ne hne, update_self], rfl, rfl, fun u hu => ?_⟩
      rw [ht]
      by_cases huc : u = s.current
      · rw [huc, update_self, hx]
        exact Option.Rel.some ⟨rfl, rfl, rfl, Iff.rfl, Iff.rfl⟩
      · rw [update_of_ne huc, update_of_ne hu]
        exact (related_of Life.refl fun _ => Or.inl rfl : Related Life s.tasks s.tasks) u
    refine ⟨born, hh.reap hlen hturn hrp.1 rfl hx hrp.2.1 hrp.2.2 (fun w hw => ?_) hnp hlog⟩
    split_ifs at hw with h0
    exact (Option.some.inj hw).symm
  | slept s1 x want status hx hxs hop hno ht hz hr1 hm hr =>
    have h1 : Hist s1 born := hh.moves (slept_life hx hxs ht) hr1.nextPid hr1.log
    exact ⟨born, h1.moves (Moves.life hm) hr.nextPid hr.log⟩

theorem Booted.hist (h : Booted boot s x) : Hist s [boot] := by
  have hother : ∀ u y, s.tasks u = some y → y = x := fun u y hy => by
    rw [h.tasks] at hy
    by_cases hu : u = boot
    · rw [hu, update_self, Option.some.injEq] at hy
      exact hy.symm
    · rw [update_of_ne hu] at hy
      simp at hy
  refine ⟨⟨fun t => ?_, nodup_singleton _, ?_, h.nextPid, fun u y hy hp => ?_, ?_, ?_⟩,
    fun u y hy hz => ?_, ?_, ?_, ?_, ?_⟩
  · rw [h.tasks, mem_singleton]
    by_cases ht : t = boot <;> simp [ht]
  · have hb : s.tasks boot = some x := by rw [h.tasks, update_self]
    rw [map_singleton, pidOf_some hb, h.pid]
    rfl
  · rw [hother u y hy, h.ppid] at hp
    exact absurd rfl hp
  case refine_6 =>
    rw [hother u y hy, h.state] at hz
    simp at hz
  all_goals simp [h.log, enqueued, Delivered]

theorem reach_hist (h : Reach Op.process boot s) : ∃ born, Hist s born := by
  induction h with
  | init _ _ _ hs =>
    obtain ⟨x, hx⟩ := taskInit_spec hs
    exact ⟨[_], hx.hist⟩
  | step o hs hpr ho hstep ih =>
    obtain ⟨born, hh⟩ := ih
    obtain ⟨reg, hw⟩ := reach_waits hs
    obtain ⟨q, bl, hp, hr⟩ := reach_steady hs
    obtain ⟨s1, h1, h2⟩ := step_effect hp hr hw ho.possible hpr
    obtain rfl := Except.ok.inj (h1.symm.trans hstep)
    exact h2.effect.hist hp hh

/-- a run of processes with the stores of `wait4`, whose operations meet `P` -/
def Serves (P : Sched → Op → Prop) (nextPidVar : U64) : Sched → List Op → Sched → Prop :=
  Steps fun s o s' => o.process ∧ P s o ∧ stepStore nextPidVar s o = .ok s'

theorem Serves.reach {nextPidVar : U64} {s₀ : Sched} {ops : List Op} (h : Serves (Legal boot) nextPidVar s₀ ops s)
    (hboot : Boots boot s₀) : Reach Op.process boot s := by
  obtain ⟨kernelCr3, kstack, s₁, h64, hinit, rfl⟩ := hboot
  refine Steps.inv (fun s o s' hs hstep => ?_) (.init kernelCr3 kstack h64 hinit) h
  exact .step o hs hstep.1 hstep.2.1 (stepStore_legal hstep.2.1 nextPidVar ▸ hstep.2.2)

/-- **Exit statuses are delivered once, to the parent.** In every run of processes in which no `wait4` is told to store
the status in the kernel half, each `wait4` that returned delivered the exit status of a child of the caller that had
exited before and had not been delivered before; and the pids of all tasks are distinct and not 0. -/
theorem exit_status_delivered_once (boot : ℕ) (nextPidVar : U64) (s₀ s : Sched) (ops : List Op) (hboot : Boots boot s₀)
    (hrun : Serves (Legal boot) nextPidVar s₀ ops s) :
    (∀ newer older t want r stored, s.log = newer ++ .waited t want r stored :: older →
    Delivers older t want r stored) ∧
    ((enqueued s.log).map Prod.snd).Nodup ∧ (∀ t pid, Event.enqueued t pid ∈ s.log → pid ≠ 0) ∧
    ∀ t u x y, s.tasks t = some x → s.tasks u = some y → x.pid ≠ 0 ∧ (x.pid = y.pid → t = u) := by
  have hs := hrun.reach hboot
  obtain ⟨born, h⟩ := reach_hist hs
  obtain ⟨q, bl, hp, _⟩ := reach_steady hs
  have hlen : born.length < 2 ^ 64 := length_lt_fuel h.nodup fun u hu => hp.addr u ((h.all u).1 hu)
  refine ⟨fun newer older t want r stored he => h.good.split he, ?_, fun t pid he => ?_, fun t u x y hx hy => ?_⟩
  · -- equal pids mean equal tasks, and no task is enqueued twice
    refine List.Nodup.map_on (fun a ha b hb he => ?_) (List.Nodup.of_map _ h.enqOnce)
    obtain ⟨x, hx, hxp⟩ := h.enqs a.1 a.2 (mem_enqueued.1 ha)
    obtain ⟨y, hy, hyp⟩ := h.enqs b.1 b.2 (mem_enqueued.1 hb)
    exact Prod.ext (h.pid_inj hlen hx hy (by rw [hxp, hyp, he])) he
  · obtain ⟨x, hx, rfl⟩ := h.enqs t pid he
    exact h.pid_ne_zero hlen hx
  · exact ⟨h.pid_ne_zero hlen hx, h.pid_inj hlen hx hy⟩

/-! ## Stores of `wait4` -/

/-- a process forks; the child exits with `arg`, and the parent's `wait4` stores the status at `status` -/
def family (status arg : U64) : List Op :=
  [.userTaskCreate 0x2000 0x8000 5, .start, .fork 0x3000 0xc000 6, .wait4 (-1) status, .tick, .tick, .exit arg,
    .tick, .tick, .resume]

/-- the state of `kmain` with the bootstrap task at 0x1000 -/
def bootSched : Sched := (((statics 1).taskInit 0x1000 0x4000).toOption.getD (statics 1)).schedInit

theorem bootSched_boots : Boots 0x1000 bootSched := ⟨1, 0x4000, _, by decide, rfl, rfl⟩

/-- a run in which a child exits with 7 and its parent's `wait4` returns it -/
theorem serves_family : ∃ s newer older, Serves (Legal 0x1000) 0xFFFFFFFF80200000 bootSched (family 0x7f0000 7) s ∧
    s.log = newer ++ .waited 0x2000 (-1) 3 (some 7) :: older := by
  refine ⟨_, [], _, .cons ⟨trivial, ⟨⟨⟨_, rfl, rfl⟩, Or.inr ⟨rfl, by decide⟩⟩, by decide⟩, rfl⟩ <|
    .cons ⟨trivial, ⟨rfl, by decide⟩, rfl⟩ <|
    .cons ⟨trivial, ⟨⟨⟨_, rfl, rfl⟩, Or.inr ⟨rfl, by decide⟩⟩, by decide⟩, rfl⟩ <|
    .cons ⟨trivial, ⟨⟨⟨_, rfl, rfl⟩, by decide⟩, by decide⟩, rfl⟩ <|
    .cons ⟨trivial, ⟨trivial, by decide⟩, rfl⟩ <| .cons ⟨trivial, ⟨trivial, by decide⟩, rfl⟩ <|
    .cons ⟨trivial, ⟨⟨⟨_, rfl, rfl⟩, by decide⟩, by decide⟩, rfl⟩ <|
    .cons ⟨trivial, ⟨trivial, by decide⟩, rfl⟩ <| .cons ⟨trivial, ⟨trivial, by decide⟩, rfl⟩ <|
    .cons ⟨trivial, ⟨fun h => absurd h (by decide), by decide⟩, rfl⟩ <| .nil _, rfl⟩

theorem exit_status_delivered : ∃ s newer older,
    Serves (Legal 0x1000) 0xFFFFFFFF80200000 bootSched (family 0x7f0000 7) s ∧
    s.log = newer ++ .waited 0x2000 (-1) 3 (some 7) :: older ∧ Delivers older 0x2000 (-1) 3 (some 7) := by
  obtain ⟨s, newer, older, hs, hl⟩ := serves_family
  exact ⟨s, newer, older, hs, hl,
    (exit_status_delivered_once 0x1000 _ bootSched s _ bootSched_boots hs).1 newer older _ _ _ _ hl⟩

/-- **A pid given twice.** The child exits with 2, the status is stored to `next_pid`, and the parent forks again: the
new child has the pid of its parent. -/
theorem pid_given_twice : ∃ s, Boots 0x1000 bootSched ∧ Serves (Possible 0x1000) 0xFFFFFFFF80200000 bootSched
    (family 0xFFFFFFFF80200000 2 ++ [.fork 0x4000 0x10000 7]) s ∧
    Event.enqueued 0x2000 2 ∈ s.log ∧ Event.enqueued 0x4000 2 ∈ s.log ∧ ¬ ((enqueued s.log).map Prod.snd).Nodup := by
  obtain ⟨s, hrun, hlog⟩ : ∃ s, Serves (Possible 0x1000) 0xFFFFFFFF80200000 bootSched
      (family 0xFFFFFFFF80200000 2 ++ [.fork 0x4000 0x10000 7]) s ∧
      s.log = [.forked 0x2000 0x4000, .enqueued 0x4000 2, .waited 0x2000 (-1) 3 (some 2), .exited 0x3000 2,
        .forked 0x2000 0x3000, .enqueued 0x3000 3, .enqueued 0x2000 2] := by
    refine ⟨_, .cons ⟨trivial, ⟨⟨_, rfl, rfl⟩, Or.inr ⟨rfl, by decide⟩⟩, rfl⟩ <|
      .cons ⟨trivial, rfl, rfl⟩ <|
      .cons ⟨trivial, ⟨⟨_, rfl, rfl⟩, Or.inr ⟨rfl, by decide⟩⟩, rfl⟩ <|
      .cons ⟨trivial, ⟨⟨_, rfl, rfl⟩, by decide⟩, rfl⟩ <|
      .cons ⟨trivial, trivial, rfl⟩ <| .cons ⟨trivial, trivial, rfl⟩ <|
      .cons ⟨trivial, ⟨⟨_, rfl, rfl⟩, by decide⟩, rfl⟩ <|
      .cons ⟨trivial, trivial, rfl⟩ <| .cons ⟨trivial, trivial, rfl⟩ <|
      .cons ⟨trivial, fun h => absurd h (by decide), rfl⟩ <|
      .cons ⟨trivial, ⟨⟨_, rfl, rfl⟩, Or.inr ⟨rfl, by decide⟩⟩, rfl⟩ <| .nil _, rfl⟩
  refine ⟨s, bootSched_boots, hrun, by simp [hlog], by simp [hlog], ?_⟩
  rw [hlog]
  exact (by decide : ¬ ([2, 3, 2] : List U64).Nodup)

end Uix.Sched
