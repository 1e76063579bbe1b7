/-
What becomes of a child that `wait4` has reaped, over whole runs with forks, exits, `wait4` and `execve`.

`wait4` marks the child DEAD and leaves the rest to `schedule()`. But `schedule()` frees only a task that is DEAD when
it is switched away from, and the child was a ZOMBIE then: nothing ever finds its structure again.

- `step_spares`: an operation leaves the structure of a task that has ended as it is, but for the one child that `wait4`
  reaps.
- `Runs.ended`: so a structure marked DEAD by `wait4` is never freed.
- `structures_lost`: each `wait4` that returns a child costs one structure for good.
- `reaped_returned_iff`: its structure and stack are given back only as long as no later `schedule()` has switched
  tasks.
-/
import Uix.Cpu.SchedRun

namespace Uix.Sched

open Machine Links List Function

/-! ## Runs -/

/-- a kernel entry of `Op`, or an `execve` that gives the current task the address space `cr3` -/
inductive Act where
  | op (o : Op)
  | execve (cr3 : U64)

def act (s : Sched) : Act → Except Stop Sched
  | .op o => step s o
  | .execve cr3 => do
    let x ← s.get s.current
    pure ((s.put s.current { x with cr3 := cr3 }).vmmSwitch cr3)

def Able (boot : ℕ) (s : Sched) : Act → Prop
  | .op o => Legal boot s o
  | .execve _ => InCode s ∧ s.current ≠ boot

/-- a run, what was done in it (newest first), and whether one of its `schedule()`s switched tasks -/
inductive Runs (boot : ℕ) (s : Sched) : List Act → Bool → Sched → Prop where
  | nil : Runs boot s [] false s
  | step {acts : List Act} {switched : Bool} {s₁ s₂ : Sched} (a : Act) : Runs boot s acts switched s₁ → Able boot s₁ a →
      act s₁ a = .ok s₂ → Runs boot s (a :: acts) (switched || decide (s₂.current ≠ s₁.current)) s₂

variable {boot : ℕ} {s s' : Sched} {q bl : List ℕ} {c : ℕ} {x y : Task}

/-! ## Tasks that have ended -/

/-- the task `c` has ended, and no `schedule()` will free it: it is neither the current task nor the one left behind -/
structure Ended (s : Sched) (c : ℕ) (y : Task) : Prop where
  here : s.tasks c = some y
  state : y.state = .zombie ∨ y.state = .dead
  current : c ≠ s.current
  slot : c ≠ s.zombie

theorem Ended.stateOf (h : Ended s c y) : s.stateOf c = some .zombie ∨ s.stateOf c = some .dead := by
  rw [stateOf_some h.here]
  exact h.state.imp (congrArg some) (congrArg some)

theorem Placed.ended (h : Placed boot s q bl) (hr : s.stateOf s.current = some .running) (hy : s.tasks c = some y)
    (hz : y.state = .zombie) : Ended s c y := by
  have hc : s.stateOf c = some .zombie := by rw [stateOf_some hy, hz]
  refine ⟨hy, Or.inl hz, ?_, ?_⟩
  · rintro rfl
    simp [hr] at hc
  · rintro rfl
    rcases h.zombie with h0 | ⟨_, hd⟩
    · exact (h.addr _ (by simp [hy])).1 h0
    · simp [hd] at hc

/-- `wait4` returns a child -/
def isWaited : Event → Bool
  | .waited .. => true
  | _ => false

/-- the number of children that `wait4` has returned so far -/
def reapings (log : List Event) : ℕ := log.countP isWaited

/-- the tasks that have ended are left as they are, and `wait4` returns no child -/
structure Spares (s s' : Sched) : Prop where
  ended : ∀ c y, Ended s c y → Ended s' c y
  log : reapings s'.log = reapings s.log

theorem Spares.trans {s s₁ s₂ : Sched} (h : Spares s s₁) (h' : Spares s₁ s₂) : Spares s s₂ :=
  ⟨fun c y hc => h'.ended c y (h.ended c y hc), h'.log.trans h.log⟩

/-- the structures of the tasks that have ended are the same, and so are the current task and the one left behind -/
theorem Spares.of_tasks (ht : ∀ c y, Ended s c y → s'.tasks c = s.tasks c) (hc : s'.current = s.current)
    (hz : s'.zombie = s.zombie) (hl : reapings s'.log = reapings s.log) : Spares s s' where
  ended c y h := ⟨(ht c y h).trans h.here, h.state, hc ▸ h.current, hz ▸ h.slot⟩
  log := hl

theorem Placed.schedule_spares (h : Placed boot s q bl) : ∃ s', s.schedule = .ok s' ∧ Spares s s' := by
  rcases schedule_spec h with ⟨s', hs, _, hst⟩ | ⟨s', n, q', x, y, hs, hq, _, hy, hsw, _⟩
  · refine ⟨s', hs, fun c w hc => ⟨?_, hc.state, hst.current ▸ hc.current, ?_⟩, congrArg reapings hst.reg.log⟩
    · rw [hst.tasks, buried_of_ne _ (Or.inr hc.slot), hc.here]
    · rw [hst.zombie]
      exact (h.addr c (by simp [hc.here])).1
  · refine ⟨s', hs, fun c w hc => ?_, congrArg reapings hsw.reg.log⟩
    -- the task switched in is READY
    have hcn : c ≠ n := by
      rintro rfl
      have hready := (h.ready c).1 (by simp [hq])
      rcases hc.stateOf with hst | hst <;> simp [hready] at hst
    refine ⟨(hsw.rest c hcn hc.current (Or.inr hc.slot)).trans hc.here, hc.state, hsw.current ▸ hcn, ?_⟩
    rw [hsw.zombie]
    split_ifs
    · exact hc.current
    · exact (h.addr c (by simp [hc.here])).1

/-- an entry that leaves the tasks that have ended alone and then calls `schedule()` -/
theorem Placed.enters (h : Placed boot s' q bl) (hs : Spares s s') : ∃ s₁, s'.schedule = .ok s₁ ∧ Spares s s₁ := by
  obtain ⟨s₁, h1, h2⟩ := h.schedule_spares
  exact ⟨s₁, h1, hs.trans h2⟩

theorem Creates.spares {t : ℕ} {ppid : U64} {evs : List Event} (hc : Creates s s' q bl t ppid evs) (hf : Fresh s t)
    (hevs : reapings evs = 0) : Spares s s' := by
  have hne : t ≠ 0 → ∀ c y, Ended s c y → c ≠ t := by
    rintro h0 c y he rfl
    have := he.here
    simp [(hf.resolve_left h0).1] at this
  rcases hc with rfl | ⟨h0, rfl⟩ | ⟨h0, x, hc, _, hl, _⟩
  · exact ⟨fun _ _ h => h, rfl⟩
  · refine .of_tasks (fun c y he => ?_) rfl rfl rfl
    simp [kfreeTask, kzalloc, hne h0 c y he]
  · refine .of_tasks (fun c y he => ?_) hc.current hc.zombie ?_
    · rw [hc.tasks, update_of_ne (hne h0 c y he)]
    · rw [hl, reapings, countP_append]
      exact (congrArg (· + _) hevs).trans (Nat.zero_add _)

/-- only the structure of the current task is written -/
theorem Spares.of_update (ht : s'.tasks = update s.tasks s.current (some x)) (hc : s'.current = s.current)
    (hz : s'.zombie = s.zombie) (hl : reapings s'.log = reapings s.log) : Spares s s' :=
  .of_tasks (fun c y h => by rw [ht, update_of_ne h.current]) hc hz hl

/-- the current task exits: apart from it, only BLOCKED tasks are written -/
theorem Placed.exit_spares (h : Placed boot s q bl) {e p : U64}
    (ht : s'.tasks = woken (update s.tasks s.current (some x)) e p bl) (hc : s'.current = s.current)
    (hz : s'.zombie = s.zombie) (hl : reapings s'.log = reapings s.log) : Spares s s' := by
  refine .of_tasks (fun c y he => ?_) hc hz hl
  have hcb : c ∉ bl := fun hm => by
    have := (h.blocked c).1 hm
    rcases he.stateOf with hst | hst <;> simp [this] at hst
  rw [ht, woken, if_neg fun hh => hcb hh.1, update_of_ne he.current]

/-- `wait4` returns the child `c`: its structure, which was that of a ZOMBIE, is marked DEAD -/
structure Reaped (s s' : Sched) (c : ℕ) (y : Task) : Prop where
  child : s.tasks c = some y
  exited : y.state = .zombie
  marked : Ended s' c { y with state := .dead }
  others : ∀ d w, d ≠ c → Ended s d w → Ended s' d w
  log : ∃ want stored, s'.log = .waited s.current want y.pid stored :: s.log

theorem wait4Round_spares (h : Placed boot s q bl) (hr : s.stateOf s.current = some .running) (hb : s.current ≠ boot)
    (want status : U64) (hs : s.wait4Round want status = .ok s') : Spares s s' ∨ ∃ c y, Reaped s s' c y := by
  obtain ⟨x, hx, _⟩ := exists_of_stateOf hr
  rcases wait4Round_cases h hr hx want status with
    ⟨e, _, he⟩ | ⟨c, y, s1, _, h1, hy, hrp, _, ht, hc, hz, _, _, _, hl⟩ | ⟨_, h1⟩
  · rw [hs] at he
    cases he
  · obtain rfl := Except.ok.inj (hs.symm.trans h1)
    have he := h.ended hr hy hrp.1
    refine Or.inr ⟨c, y, hy, hrp.1, ⟨?_, Or.inr rfl, hc ▸ he.current, hz ▸ he.slot⟩, fun d w hd hw => ?_, _, _, hl⟩
    · rw [ht, update_of_ne he.current, update_self]
    · refine ⟨?_, hw.state, hc ▸ hw.current, hz ▸ hw.slot⟩
      rw [ht, update_of_ne hw.current, update_of_ne hd, hw.here]
  · obtain ⟨s1, h2, hp, ht, hc, hz, hreg⟩ := taskBlockAny_spec h hr hb hx want status
    obtain ⟨s2, h3, h4⟩ := hp.enters (.of_update ht hc hz (congrArg reapings hreg.log))
    obtain rfl := Except.ok.inj (hs.symm.trans (h1.trans (h2.trans h3)))
    exact Or.inl h4

theorem schedTick_spares (h : Placed boot s q bl) (hs : s.schedTick = .ok s') : Spares s s' := by
  have hp : Placed boot { s with needResched := false, ticksSinceSwitch := 0 } q bl :=
    h.congr h.holds (fun _ => rfl) rfl rfl
  obtain ⟨s1, h1, h2⟩ := hp.enters (s := s) (.of_tasks (fun _ _ _ => rfl) rfl rfl rfl)
  unfold schedTick at hs
  split_ifs at hs
  · exact Except.ok.inj (hs.symm.trans h1) ▸ h2
  · obtain rfl := pure_ok.1 hs
    exact .of_tasks (fun _ _ _ => rfl) rfl rfl rfl
  · exact Except.ok.inj (hs.symm.trans h1) ▸ h2

/-- **One operation.** The tasks that have ended are left as they are, but for the child that `wait4` reaps. -/
theorem step_spares (h : Placed boot s q bl) (hr : s.stateOf s.current = some .running) {o : Op}
    (ho : Possible boot s o) (hs : step s o = .ok s') : Spares s s' ∨ ∃ c y, Reaped s s' c y := by
  obtain ⟨x, hx, _⟩ := exists_of_stateOf hr
  cases o with
  | taskCreate t kstack =>
    obtain ⟨s1, h1, hc⟩ := taskCreate_spec h ho.2 kstack
    exact Or.inl (Except.ok.inj (h1.symm.trans hs) ▸ hc.spares ho.2 rfl)
  | userTaskCreate t kstack cr3 =>
    obtain ⟨s1, h1, hc⟩ := userTaskCreate_spec h ho.2 kstack cr3
    exact Or.inl (Except.ok.inj (h1.symm.trans hs) ▸ hc.spares ho.2 rfl)
  | fork t kstack cr3 =>
    obtain ⟨s1, h1, hc⟩ := doFork_spec h ho.2 hx kstack cr3
    exact Or.inl (Except.ok.inj (h1.symm.trans hs) ▸ hc.spares ho.2 rfl)
  | start =>
    obtain ⟨s1, h1, h2⟩ := h.schedule_spares
    exact Or.inl (Except.ok.inj (h1.symm.trans hs) ▸ h2)
  | tick => exact Or.inl (schedTick_spares h hs)
  | yield =>
    obtain rfl := Except.ok.inj hs
    exact Or.inl (.of_tasks (fun _ _ _ => rfl) rfl rfl rfl)
  | exit rdi =>
    obtain ⟨s1, w, bl', h1, hp, ht, hc, hz, _, _, _, hl⟩ := sysExit_spec h hr ho.2 hx rdi
    obtain ⟨s2, h2, h3⟩ := hp.enters (h.exit_spares ht hc hz (by rw [hl]; rfl))
    exact Or.inl (Except.ok.inj ((h1.trans h2).symm.trans hs) ▸ h3)
  | taskExit =>
    obtain ⟨s2, h2, h3⟩ := (h.ends hr ho.2 rfl (Or.inl rfl) rfl rfl rfl :
      Placed boot (s.put s.current { x with state := .dead }) q bl).enters (s := s) (.of_update rfl rfl rfl rfl)
    change s.taskExit = .ok s' at hs
    rw [taskExit, setState_ok hx, ok_bind, h2] at hs
    exact Or.inl (Except.ok.inj hs ▸ h3)
  | wait4 want status => exact wait4Round_spares h hr ho.2 want status hs
  | resume =>
    simp only [step, get_ok hx, ok_bind] at hs
    cases hpc : x.pc with
    | fresh =>
      rw [hpc] at hs
      exact Or.inl (pure_ok.1 hs ▸ ⟨fun _ _ h => h, rfl⟩)
    | run =>
      rw [hpc] at hs
      exact Or.inl (pure_ok.1 hs ▸ ⟨fun _ _ h => h, rfl⟩)
    | wait4 want status =>
      rw [hpc] at hs
      exact wait4Round_spares h hr ho want status hs

/-- `execve` writes nothing but the address space of the current task -/
theorem execve_spares (h : Steady boot s) {cr3 : U64} (hs : act s (.execve cr3) = .ok s') :
    Steady boot s' ∧ Spares s s' := by
  obtain ⟨x, hx⟩ := h.current
  simp only [act, get_ok hx, ok_bind] at hs
  obtain rfl := pure_ok.1 hs
  exact ⟨h.setSpace hx rfl rfl rfl rfl, .of_update rfl rfl rfl rfl⟩

theorem act_spares (h : Steady boot s) {a : Act} (ha : Able boot s a) (hs : act s a = .ok s') :
    Steady boot s' ∧ (Spares s s' ∨ ∃ c y, Reaped s s' c y) := by
  cases a with
  | op o =>
    obtain ⟨q, bl, hp, hr⟩ := h
    exact ⟨step_steady ⟨q, bl, hp, hr⟩ ha.possible hs, step_spares hp hr ha.possible hs⟩
  | execve cr3 =>
    obtain ⟨h1, h2⟩ := execve_spares h hs
    exact ⟨h1, Or.inl h2⟩

/-! ## Whole runs -/

theorem Boots.run (_ : Boots boot s) : Runs boot s [] false s := .nil

variable {acts : List Act} {switched : Bool}

/-- the run that starts where another ends -/
theorem Runs.rest (_ : Runs boot s acts switched s') : Runs boot s' [] false s' := .nil

theorem Runs.steady (h : Runs boot s acts switched s') (hs : Steady boot s) : Steady boot s' := by
  induction h with
  | nil => exact hs
  | step a _ ha hstep ih => exact (act_spares ih ha hstep).1

/-- a structure marked DEAD by `wait4` stays as it is -/
theorem Runs.ended (h : Runs boot s acts switched s') (hs : Steady boot s) (hc : Ended s c y) (hd : y.state = .dead) :
    Ended s' c y := by
  induction h with
  | nil => exact hc
  | step a hrun ha hstep ih =>
    rcases (act_spares (hrun.steady hs) ha hstep).2 with hsp | ⟨d, w, hr⟩
    · exact hsp.ended c y ih
    · refine hr.others c y ?_ ih
      rintro rfl
      obtain rfl : y = w := Option.some.inj (ih.here.symm.trans hr.child)
      exact absurd (hd.symm.trans hr.exited) (by decide)

/-- **One structure for each child.** After any run from boot there are as many structures that nothing will ever free
as `wait4` has returned children. -/
theorem structures_lost (hb : Boots boot s) (h : Runs boot s acts switched s') :
    ∃ l : List ℕ, l.Nodup ∧ l.length = reapings s'.log ∧ ∀ c ∈ l, ∃ y, Ended s' c y ∧ y.state = .dead := by
  induction h with
  | nil =>
    obtain ⟨kernelCr3, kstack, s₀, _, hs, rfl⟩ := hb
    obtain ⟨x, hx⟩ := taskInit_spec hs
    refine ⟨[], nodup_nil, ?_, fun c hc => absurd hc not_mem_nil⟩
    rw [hx.log]
    rfl
  | step a hrun ha hstep ih =>
    obtain ⟨l, hnd, hlen, hl⟩ := ih
    rcases (act_spares (hrun.steady hb.steady) ha hstep).2 with hsp | ⟨d, w, hr⟩
    · exact ⟨l, hnd, hlen.trans hsp.log.symm, fun c hc => (hl c hc).imp fun y hy => ⟨hsp.ended c y hy.1, hy.2⟩⟩
    · -- the child reaped was a ZOMBIE, so it is not among those counted before
      have hne : ∀ c ∈ l, c ≠ d := by
        rintro c hc rfl
        obtain ⟨y, hy, hd⟩ := hl c hc
        obtain rfl : y = w := Option.some.inj (hy.here.symm.trans hr.child)
        exact absurd (hd.symm.trans hr.exited) (by decide)
      obtain ⟨want, stored, hlog⟩ := hr.log
      refine ⟨d :: l, nodup_cons.2 ⟨fun hd => hne d hd rfl, hnd⟩, ?_, fun c hc => ?_⟩
      · rw [hlog, length_cons, hlen]
        exact (countP_cons_of_pos rfl).symm
      · rcases mem_cons.1 hc with rfl | hc
        · exact ⟨_, hr.marked, rfl⟩
        · obtain ⟨y, hy, hd⟩ := hl c hc
          exact ⟨y, hr.others c y (hne c hc) hy, hd⟩

/-! ## What a process had -/

/-- the addresses that the heap hands out for an operation -/
def Act.takes : Act → List ℕ
  | .op (.taskCreate t kstack) => [t, kstack]
  | .op (.userTaskCreate t kstack _) => [t, kstack]
  | .op (.fork t kstack _) => [t, kstack]
  | _ => []

/-- `a` has been freed between `s` and `s'`; and only once, unless the heap has handed it out again -/
def FreedOnce (s s' : Sched) (acts : List Act) (a : ℕ) : Prop :=
  s.freed.count a < s'.freed.count a ∧
    ((∀ b ∈ acts, a ∉ b.takes) → s'.freed.count a = s.freed.count a + 1)

/-- the structure `y` of the process `c`, reaped at `s`, and its stack have been given back to the heap at `s'`. The
pages of its address space, which are to be free as well, are not asked for: not even these two are. -/
structure Returned (s s' : Sched) (acts : List Act) (c : ℕ) (y : Task) : Prop where
  gone : ∀ x, s'.tasks c = some x → x.pid ≠ y.pid
  task : FreedOnce s s' acts c
  stack : FreedOnce s s' acts y.kstack

/-- the step from `s` to `s'` reaps the child `c`, whose structure was `y`: it had exited, and `wait4` of its parent,
the current task, marks it DEAD and returns its pid -/
structure Reaps (s s' : Sched) (c : ℕ) (y : Task) : Prop where
  child : s.tasks c = some y
  exited : y.state = .zombie
  parent : ∃ x, s.tasks s.current = some x ∧ y.ppid = x.pid
  marked : s'.stateOf c = some .dead
  returned : ∃ want stored, s'.log = .waited s.current want y.pid stored :: s.log

theorem Reaps.ended (h : Reaps s s' c y) (hs : Steady boot s) {a : Act} (ha : Able boot s a)
    (hstep : act s a = .ok s') : Ended s' c { y with state := .dead } := by
  obtain ⟨q, bl, hp, hr⟩ := hs
  have hc := hp.ended hr h.child h.exited
  -- a ZOMBIE that this step does not reap is still one
  have hstill : ¬ Ended s' c y := fun he => by
    have := h.marked
    rw [stateOf_some he.here, h.exited] at this
    simp at this
  rcases (act_spares ⟨q, bl, hp, hr⟩ ha hstep).2 with hsp | ⟨d, w, hd⟩
  · exact absurd (hsp.ended c y hc) hstill
  · by_cases hcd : c = d
    · subst hcd
      obtain rfl : y = w := Option.some.inj (h.child.symm.trans hd.child)
      exact hd.marked
    · exact absurd (hd.others c y hcd hc) hstill

/-- **A reaped child is never given back.** In every run from boot, from the step in which `wait4` reaps a child on:
its structure and stack have been given back by the time a later `schedule()` has switched tasks only if none has. -/
theorem reaped_returned_iff (boot : ℕ) (s₀ s₁ s₂ s₃ : Sched) (before after : List Act) (a : Act)
    (switched₁ switched : Bool) (c : ℕ) (y : Task) (hboot : Boots boot s₀) (hbefore : Runs boot s₀ before switched₁ s₁)
    (ha : Able boot s₁ a) (hstep : act s₁ a = .ok s₂) (hreap : Reaps s₁ s₂ c y)
    (hafter : Runs boot s₂ after switched s₃) : (switched = true → Returned s₂ s₃ after c y) ↔ switched = false := by
  have h1 := hbefore.steady hboot.steady
  have h2 := (act_spares h1 ha hstep).1
  have hlost := hafter.ended h2 (hreap.ended h1 ha hstep) rfl
  constructor
  · intro h
    by_contra hs
    exact (h (by simpa using hs)).gone _ hlost.here rfl
  · intro h hs
    simp [h] at hs

/-- a process forks, its child exits, `wait4` reaps the child, and two ticks later `schedule()` switches tasks -/
theorem reap_and_switch : ∃ s₀ s₁ s₂ s₃ before after a switched₁ y, Boots 0x1000 s₀ ∧
    Runs 0x1000 s₀ before switched₁ s₁ ∧
    Able 0x1000 s₁ a ∧ act s₁ a = .ok s₂ ∧ Reaps s₁ s₂ 0x3000 y ∧ Runs 0x1000 s₂ after true s₃ ∧
    s₃.tasks 0x3000 = some { y with state := .dead } := by
  have h0 : Boots 0x1000 _ := ⟨1, 0x4000, _, by decide, rfl, rfl⟩
  have h1 := h0.run.step (.op (.userTaskCreate 0x2000 0x8000 5))
    ⟨⟨⟨_, rfl, rfl⟩, Or.inr ⟨rfl, by decide⟩⟩, by decide⟩ rfl
  have h2 := h1.step (.op .start) ⟨rfl, by decide⟩ rfl
  have h3 := h2.step (.op (.fork 0x3000 0xc000 6)) ⟨⟨⟨_, rfl, rfl⟩, Or.inr ⟨rfl, by decide⟩⟩, by decide⟩ rfl
  have h4 := (h3.step (.op .tick) ⟨trivial, by decide⟩ rfl).step (.op .tick) ⟨trivial, by decide⟩ rfl
  have h5 := (h4.step (.op .tick) ⟨trivial, by decide⟩ rfl).step (.op .tick) ⟨trivial, by decide⟩ rfl
  have h6 := h5.step (.op (.exit 7)) ⟨⟨⟨_, rfl, rfl⟩, by decide⟩, by decide⟩ rfl
  have h7 := h6.step (.op (.wait4 (-1) 0x7f0000)) ⟨⟨⟨_, rfl, rfl⟩, by decide⟩, by decide⟩ rfl
  have h8 := (h7.rest.step (.op .tick) ⟨trivial, by decide⟩ rfl).step (.op .tick) ⟨trivial, by decide⟩ rfl
  exact ⟨_, _, _, _, _, _, .op (.wait4 (-1) 0x7f0000), _, _, h0, h6, ⟨⟨⟨_, rfl, rfl⟩, by decide⟩, by decide⟩, rfl,
    ⟨rfl, rfl, ⟨_, rfl, rfl⟩, rfl, _, _, rfl⟩, h8, rfl⟩

theorem reap_and_switch_iff : ∃ s₀ s₁ s₂ s₃ before after a switched₁ y, Boots 0x1000 s₀ ∧
    Runs 0x1000 s₀ before switched₁ s₁ ∧ Able 0x1000 s₁ a ∧ act s₁ a = .ok s₂ ∧ Reaps s₁ s₂ 0x3000 y ∧
    Runs 0x1000 s₂ after true s₃ ∧ ((true = true → Returned s₂ s₃ after 0x3000 y) ↔ true = false) := by
  obtain ⟨s₀, s₁, s₂, s₃, before, after, a, switched₁, y, h0, h1, h2, h3, h4, h5, _⟩ := reap_and_switch
  exact ⟨s₀, s₁, s₂, s₃, before, after, a, switched₁, y, h0, h1, h2, h3, h4, h5,
    reaped_returned_iff _ s₀ s₁ s₂ s₃ before after a switched₁ true 0x3000 y h0 h1 h2 h3 h4 h5⟩

/-- the child's structure is still there after the switch -/
theorem reaped_child_kept : ∃ s₀ s₁ s₂ s₃ before after a switched₁ y, Boots 0x1000 s₀ ∧
    Runs 0x1000 s₀ before switched₁ s₁ ∧ Able 0x1000 s₁ a ∧ act s₁ a = .ok s₂ ∧ Reaps s₁ s₂ 0x3000 y ∧
    Runs 0x1000 s₂ after true s₃ ∧ ¬ Returned s₂ s₃ after 0x3000 y := by
  obtain ⟨s₀, s₁, s₂, s₃, before, after, a, switched₁, y, h0, h1, h2, h3, h4, h5, h6⟩ := reap_and_switch
  exact ⟨s₀, s₁, s₂, s₃, before, after, a, switched₁, y, h0, h1, h2, h3, h4, h5, fun h => h.gone _ h6 rfl⟩

end Uix.Sched
