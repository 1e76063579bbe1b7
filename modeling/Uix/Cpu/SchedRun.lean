/-
The scheduler over whole runs: from `task_init` and `sched_init`, any sequence of task creations, timer ticks, yields,
`wait4` calls, exits and `task_exit`s, each kernel entry atomic up to the switch in its `schedule()`. The bootstrap task
neither blocks nor exits.

- `Legal`: the operations, with the status pointers of `wait4` (which the kernel does not check) 0 or in the user half.
- `step_placed`: every operation leaves each task in its place and the current one RUNNING.
- `each_task_in_one_place`: so it is in every reachable state, and no step ends in the halt loop.
-/
import Uix.Cpu.SchedPlaced

namespace Uix.Sched

open Machine Links List Function

/-! ## Runs -/

inductive Op where
  | taskCreate (t kstack : ℕ)
  | userTaskCreate (t kstack : ℕ) (cr3 : U64)
  | fork (t kstack : ℕ) (cr3 : U64)
  /-- the call of `schedule()` in `sched_start` -/
  | start
  | tick
  | yield
  | exit (rdi : U64)
  | taskExit
  | wait4 (want status : U64)
  /-- a task switched in inside `wait4` goes on with the next round of its loop -/
  | resume

def step (s : Sched) : Op → Except Stop Sched
  | .taskCreate t kstack => s.taskCreate t kstack
  | .userTaskCreate t kstack cr3 => s.userTaskCreate t kstack cr3
  | .fork t kstack cr3 => s.doFork t kstack cr3
  | .start => s.schedule
  | .tick => s.schedTick
  | .yield => .ok s.taskYield
  | .exit rdi => s.sysExit rdi
  | .taskExit => s.taskExit
  | .wait4 want status => s.wait4Round want status
  | .resume => do
    let x ← s.get s.current
    match x.pc with
    | .wait4 want status => s.wait4Round want status
    | _ => pure s

/-- the current task is in its own code -/
def InCode (s : Sched) : Prop := ∃ x, s.tasks s.current = some x ∧ x.pc = .run

/-- the status pointer of the `wait4` call that the operation is a part of -/
def statusPtr (s : Sched) : Op → U64
  | .wait4 _ status => status
  | .resume =>
    match s.tasks s.current with
    | some x =>
      match x.pc with
      | .wait4 _ status => status
      | _ => 0
    | none => 0
  | _ => 0

/-- the operations possible in a state: allocations return fresh memory, system calls come from a task's own code, and
the bootstrap task neither blocks nor exits -/
def Possible (boot : ℕ) (s : Sched) : Op → Prop
  | .taskCreate t _ => InCode s ∧ Fresh s t
  | .userTaskCreate t _ _ => InCode s ∧ Fresh s t
  | .fork t _ _ => InCode s ∧ Fresh s t
  | .start => s.current = boot
  | .tick => True
  | .yield => InCode s
  | .exit _ => InCode s ∧ s.current ≠ boot
  | .taskExit => InCode s ∧ s.current ≠ boot
  | .wait4 _ _ => InCode s ∧ s.current ≠ boot
  | .resume => s.current ≠ boot

/-- ... and `wait4` is not told to store the status in the kernel half, where it would reach the scheduler's own
variables -/
structure Legal (boot : ℕ) (s : Sched) (o : Op) : Prop where
  possible : Possible boot s o
  status : statusPtr s o < userEnd

/-- the operation is a round of `wait4` -/
def Op.waits : Op → Bool
  | .wait4 _ _ => true
  | .resume => true
  | _ => false

/-- the status word that `wait4` stores in this operation -/
def stored (s s' : Sched) (o : Op) : Option U64 :=
  if o.waits = false ∨ s'.log.length = s.log.length then none else
  match s'.log.head? with
  | some (.waited _ _ _ v) => v
  | _ => none

/-- `*(u64 *)status_uptr = v`. A store in the user half does not concern the scheduler; in the kernel half the store to
`next_pid` is followed, and no other. -/
def storeStatus (nextPidVar status v : U64) (s : Sched) : Except Stop Sched :=
  if status < userEnd then pure s else if status = nextPidVar then pure { s with nextPid := v } else .error .wild

/-- an operation with the store; `next_pid` is at `nextPidVar` -/
def stepStore (nextPidVar : U64) (s : Sched) (o : Op) : Except Stop Sched := do
  let s' ← step s o
  match stored s s' o with
  | some v => storeStatus nextPidVar (statusPtr s o) v s'
  | none => pure s'

/-- the store of a legal operation leaves the scheduler's variables alone -/
theorem stepStore_legal {boot : ℕ} {s : Sched} {o : Op} (h : Legal boot s o) (nextPidVar : U64) :
    stepStore nextPidVar s o = step s o := by
  unfold stepStore
  cases step s o with
  | error e => rfl
  | ok s' =>
    rw [ok_bind]
    cases stored s s' o with
    | none => rfl
    | some v => exact if_pos h.status

/-- the states of legal runs of the operations in `P` from boot -/
inductive Reach (P : Op → Prop) (boot : ℕ) : Sched → Prop where
  | init (kernelCr3 : U64) (kstack : ℕ) {s : Sched} : boot < 2 ^ 64 → (statics kernelCr3).taskInit boot kstack = .ok s →
      Reach P boot s.schedInit
  | step {s s' : Sched} (o : Op) : Reach P boot s → P o → Legal boot s o → step s o = .ok s' → Reach P boot s'

/-! ## Every task in its place -/

section Step

variable {boot : ℕ} {s s' : Sched} {q bl : List ℕ}

/-- each task is in its place and the current one is RUNNING -/
def Steady (boot : ℕ) (s : Sched) : Prop := ∃ q bl, Placed boot s q bl ∧ s.stateOf s.current = some .running

theorem Placed.schedule_steady (h : Placed boot s q bl) : ∃ s', s.schedule = .ok s' ∧ Steady boot s' := by
  obtain ⟨s', w, hs, hp, hr, _⟩ := schedule_placed h
  exact ⟨s', hs, _, bl, hp, hr⟩

theorem schedTick_steady (h : Placed boot s q bl) (hr : s.stateOf s.current = some .running) :
    ∃ s', s.schedTick = .ok s' ∧ Steady boot s' := by
  have hp : Placed boot { s with needResched := false, ticksSinceSwitch := 0 } q bl :=
    h.congr h.holds (fun _ => rfl) rfl rfl
  have hswitch := hp.schedule_steady
  unfold schedTick
  split_ifs
  · exact hswitch
  · exact ⟨_, rfl, q, bl, h.congr h.holds (fun _ => rfl) rfl rfl, hr⟩
  · exact hswitch

theorem Creates.steady {t : ℕ} {ppid : U64} {evs : List Event} (hc : Creates s s' q bl t ppid evs)
    (h : Placed boot s q bl) (hr : s.stateOf s.current = some .running) (hf : Fresh s t) : Steady boot s' := by
  obtain ⟨w, hp, hs⟩ := hc.placed h hf
  exact ⟨_, bl, hp, hs.trans hr⟩

theorem wait4Round_steady (h : Placed boot s q bl) (hr : s.stateOf s.current = some .running) (hb : s.current ≠ boot)
    (want status : U64) :
    (∃ e, s.wait4Round want status = .error e ∧ e ≠ .halt) ∨ ∃ s', s.wait4Round want status = .ok s' ∧
    Steady boot s' := by
  obtain ⟨x, hx, hxs⟩ := exists_of_stateOf hr
  rcases wait4Round_cases h hr hx want status with
    ⟨e, hf, hs⟩ | ⟨z, y, s', hf, hs, hy, hrp, hp, ht, hc, _⟩ | ⟨_, hs⟩
  · exact Or.inl ⟨e, hs, findZombieLoop_stop hf⟩
  · refine Or.inr ⟨s', hs, q, bl, hp, ?_⟩
    rw [hc, stateOf, ht, update_self]
    exact congrArg some hxs
  · obtain ⟨s1, h1, hp, _⟩ := taskBlockAny_spec h hr hb hx want status
    obtain ⟨s', h2, h3⟩ := hp.schedule_steady
    exact Or.inr ⟨s', hs.trans (h1.trans h2), h3⟩

/-- **One step.** It stops in the search of a stale registry, or leaves every task in its place. -/
theorem step_placed (h : Placed boot s q bl) (hr : s.stateOf s.current = some .running) {o : Op}
    (ho : Possible boot s o) : (∃ e, step s o = .error e ∧ e ≠ .halt) ∨ ∃ s', step s o = .ok s' ∧ Steady boot s' := by
  obtain ⟨x, hx, _⟩ := exists_of_stateOf hr
  cases o with
  | taskCreate t kstack =>
    obtain ⟨s', hs, hc⟩ := taskCreate_spec h ho.2 kstack
    exact Or.inr ⟨s', hs, hc.steady h hr ho.2⟩
  | userTaskCreate t kstack cr3 =>
    obtain ⟨s', hs, hc⟩ := userTaskCreate_spec h ho.2 kstack cr3
    exact Or.inr ⟨s', hs, hc.steady h hr ho.2⟩
  | fork t kstack cr3 =>
    obtain ⟨s', hs, hc⟩ := doFork_spec h ho.2 hx kstack cr3
    exact Or.inr ⟨s', hs, hc.steady h hr ho.2⟩
  | start => exact Or.inr h.schedule_steady
  | tick => exact Or.inr (schedTick_steady h hr)
  | yield => exact Or.inr ⟨_, rfl, q, bl, h.congr h.holds (fun _ => rfl) rfl rfl, hr⟩
  | exit rdi =>
    obtain ⟨s1, q1, bl1, hs, hp, _⟩ := sysExit_spec h hr ho.2 hx rdi
    obtain ⟨s', h1, h2⟩ := hp.schedule_steady
    exact Or.inr ⟨s', hs.trans h1, h2⟩
  | taskExit =>
    obtain ⟨s1, hs, hp, _⟩ := taskExit_spec h hr ho.2 hx
    obtain ⟨s', h1, h2⟩ := hp.schedule_steady
    exact Or.inr ⟨s', hs.trans h1, h2⟩
  | wait4 want status => exact wait4Round_steady h hr ho.2 want status
  | resume =>
    simp only [step, get_ok hx, ok_bind]
    cases x.pc with
    | fresh => exact Or.inr ⟨s, rfl, q, bl, h, hr⟩
    | run => exact Or.inr ⟨s, rfl, q, bl, h, hr⟩
    | wait4 want status => exact wait4Round_steady h hr ho want status

end Step

/-- the state after `task_init` and `sched_init`: the bootstrap task is current, has pid 1 and is alone in the
registry -/
structure Booted (boot : ℕ) (s : Sched) (x : Task) : Prop where
  boot0 : boot ≠ 0
  tasks : s.tasks = Function.update (fun _ => none) boot (some x)
  state : x.state = .running
  pc : x.pc = .run
  pid : x.pid = 1
  ppid : x.ppid = 0
  lists : Holds s.lists [] []
  current : s.current = boot
  zombie : s.zombie = 0
  nextAll : s.nextAll boot = 0
  allTasks : s.allTasks = boot
  nextPid : s.nextPid = 2
  log : s.log = []

theorem taskInit_spec {kernelCr3 : U64} {boot kstack : ℕ} {s : Sched}
    (h : (statics kernelCr3).taskInit boot kstack = .ok s) : ∃ x, Booted boot s.schedInit x := by
  by_cases h0 : boot = 0
  · simp [taskInit, taskAlloc, h0] at h
  by_cases hk : kstack = 0
  · simp [taskInit, taskAlloc, h0, hk] at h
  simp only [taskInit, taskAlloc, if_neg h0, if_neg hk] at h
  obtain ⟨y, hy, h⟩ := bind_ok.1 h
  have hy' : { Task.zero with kstack := kstack, pid := 1, state := .ready } = y := by
    have := (get_ok (s := { ((statics kernelCr3).kzalloc boot).put boot
      { Task.zero with kstack := kstack, pid := 1, state := .ready } with nextPid := 1 + 1 }.taskRegister boot)
      (update_self ..)).symm.trans hy
    exact Except.ok.inj this
  obtain rfl := pure_ok.1 h
  subst hy'
  refine ⟨{ Task.zero with kstack := kstack, pid := 1, state := .running, pc := .run }, h0, ?_, rfl, rfl, rfl, rfl,
    ⟨rfl, rfl, rfl, rfl, nodup_nil⟩, rfl, rfl, ?_, rfl, rfl, rfl⟩
  · funext t
    by_cases ht : t = boot
    · subst ht
      simp [schedInit, setLists]
    · simp [schedInit, setLists, put, taskRegister, kzalloc, statics, ht]
  · simp [schedInit, setLists, put, taskRegister, kzalloc, statics]

theorem Booted.placed {boot : ℕ} {s : Sched} {x : Task} (h : Booted boot s x) (h64 : boot < 2 ^ 64) :
    Steady boot s := by
  have key : ∀ t, s.stateOf t = if t = boot then some .running else none := fun t => by
    rw [stateOf, h.tasks]
    by_cases ht : t = boot
    · simp [ht, h.state]
    · simp [ht]
  refine ⟨[], [], ⟨h.lists, fun t => ?_, fun t => ?_, fun t => ?_, ⟨x, ?_, ?_⟩, ?_, Or.inl h.zombie, fun t => ?_⟩, ?_⟩
  · rw [key]
    split_ifs <;> simp
  · rw [key]
    split_ifs <;> simp
  · rw [key, h.current]
    split_ifs with ht <;> simp [ht]
  · rw [h.current, h.tasks, update_self]
  · simp [h.state]
  · exact Or.inr ⟨h.current.symm, by rw [key, if_pos rfl]⟩
  · rw [isSome_of_stateOf, key]
    split_ifs with ht
    · exact fun _ => ht ▸ ⟨h.boot0, h64⟩
    · simp
  · rw [h.current, key, if_pos rfl]

theorem step_steady {boot : ℕ} {s s' : Sched} {o : Op} (h : Steady boot s) (ho : Possible boot s o)
    (hs : step s o = .ok s') : Steady boot s' := by
  obtain ⟨q, bl, hp, hr⟩ := h
  rcases step_placed hp hr ho with ⟨e, he, _⟩ | ⟨s1, h1, h2⟩
  · rw [he] at hs
    simp at hs
  · exact Except.ok.inj (h1.symm.trans hs) ▸ h2

theorem reach_steady {P : Op → Prop} {boot : ℕ} {s : Sched} (h : Reach P boot s) : Steady boot s := by
  induction h with
  | init _ _ h64 hs =>
    obtain ⟨x, hx⟩ := taskInit_spec hs
    exact hx.placed h64
  | step o _ _ ho hs ih => exact step_steady ih ho.possible hs

/-- the state in which `kmain` starts to create tasks -/
def Boots (boot : ℕ) (s : Sched) : Prop :=
  ∃ kernelCr3 kstack s₀, boot < 2 ^ 64 ∧ (statics kernelCr3).taskInit boot kstack = .ok s₀ ∧ s = s₀.schedInit

theorem Boots.steady {boot : ℕ} {s : Sched} (h : Boots boot s) : Steady boot s := by
  obtain ⟨kernelCr3, kstack, s₀, h64, hs, rfl⟩ := h
  obtain ⟨x, hx⟩ := taskInit_spec hs
  exact hx.placed h64

theorem Steady.current {boot : ℕ} {s : Sched} (h : Steady boot s) : ∃ x, s.tasks s.current = some x := by
  obtain ⟨q, bl, _, hr⟩ := h
  obtain ⟨x, hx, _⟩ := exists_of_stateOf hr
  exact ⟨x, hx⟩

/-- the current task gets another address space -/
theorem Steady.setSpace {boot : ℕ} {s s' : Sched} {x : Task} {cr3 : U64} (h : Steady boot s)
    (hx : s.tasks s.current = some x) (ht : s'.tasks = update s.tasks s.current (some { x with cr3 := cr3 }))
    (hl : s'.lists = s.lists) (hc : s'.current = s.current) (hz : s'.zombie = s.zombie) : Steady boot s' := by
  obtain ⟨q, bl, hp, hr⟩ := h
  have hst : ∀ t, s'.stateOf t = s.stateOf t := fun t => by
    by_cases htc : t = s.current
    · simp [stateOf, ht, htc, hx]
    · simp [stateOf, ht, htc]
  exact ⟨q, bl, hp.congr (hl ▸ hp.holds) hst hc hz, by rw [hc, hst, hr]⟩

/-! ## Each task is in exactly one place -/

/-- the run queue holds `q`, all READY, the blocked list `bl`, all BLOCKED, and with the current task, which is RUNNING,
they are the READY, RUNNING and BLOCKED tasks, each once -/
structure OnePlace (s : Sched) (q bl : List ℕ) : Prop where
  queue : Chain s.lists.next s.lists.runqueueHead q
  tail : s.lists.runqueueTail = q.getLastD 0
  size : s.lists.rqSize = q.length
  ready : ∀ t ∈ q, s.stateOf t = some .ready
  blockedList : Chain s.lists.next s.lists.blockedList bl
  blocked : ∀ t ∈ bl, s.stateOf t = some .blocked
  running : s.stateOf s.current = some .running
  once : (s.current :: (q ++ bl)).Nodup
  all : ∀ t st, s.stateOf t = some st → st = .ready ∨ st = .running ∨ st = .blocked → t ∈ s.current :: (q ++ bl)

theorem Placed.onePlace {boot : ℕ} {s : Sched} {q bl : List ℕ} (h : Placed boot s q bl)
    (hr : s.stateOf s.current = some .running) : OnePlace s q bl where
  queue := h.holds.queue
  tail := h.holds.tail
  size := h.holds.size
  ready t := (h.ready t).1
  blockedList := h.holds.blocked
  blocked t := (h.blocked t).1
  running := hr
  once := by
    refine nodup_cons.2 ⟨fun hm => ?_, h.holds.apart⟩
    rcases mem_append.1 hm with hm | hm
    · simpa [hr] using (h.ready _).1 hm
    · simpa [hr] using (h.blocked _).1 hm
  all t st ht hst := by
    have h1 := h.ready t
    have h2 := h.blocked t
    have h3 := h.running t
    grind

/-- **Each task is in exactly one place.** In every state of a run from boot; and no operation ends in the halt loop of
`schedule()`. -/
theorem each_task_in_one_place (boot : ℕ) (s : Sched) (hs : Reach (fun _ => True) boot s) :
    (∃ q bl, OnePlace s q bl) ∧ ∀ o, Legal boot s o → step s o ≠ .error .halt := by
  obtain ⟨q, bl, h, hr⟩ := reach_steady hs
  refine ⟨⟨q, bl, h.onePlace hr⟩, fun o ho he => ?_⟩
  rcases step_placed h hr ho.possible with ⟨e, he', hne⟩ | ⟨s', hs', _⟩
  · rw [he, Except.error.injEq] at he'
    exact hne he'.symm
  · rw [he] at hs'
    simp at hs'

/-- a run in which the bootstrap task starts a user task and that one waits -/
theorem reach_waiting : ∃ s, Reach (fun _ => True) 0x1000 s ∧ s.stateOf 0x2000 = some .blocked := by
  refine ⟨_, Reach.step (.wait4 (-1) 0) (Reach.step .start (Reach.step (.userTaskCreate 0x2000 0x8000 5)
    (Reach.init 1 0x4000 (by decide) rfl) trivial ⟨⟨⟨_, rfl, rfl⟩, Or.inr ⟨rfl, by decide⟩⟩, by decide⟩ rfl)
    trivial ⟨rfl, by decide⟩ rfl) trivial ⟨⟨⟨_, rfl, rfl⟩, by decide⟩, by decide⟩ rfl, rfl⟩

theorem one_place_waiting : ∃ s, Reach (fun _ => True) 0x1000 s ∧ s.stateOf 0x2000 = some .blocked ∧
    ∃ q bl, OnePlace s q bl := by
  obtain ⟨s, hs, hb⟩ := reach_waiting
  exact ⟨s, hs, hb, (each_task_in_one_place 0x1000 s hs).1⟩

end Uix.Sched
