/-
The scheduler and the address spaces: which space is active after each operation, and whose it is.

- `schedule_spaced`: `schedule()` loads the space of the task it switches to, if that has one of its own.
- `step_spaced`: every operation but the creation of user tasks leaves each of them its `cr3`, and changes the active
  space only with the current task.
-/
import Uix.Cpu.SchedRoundRobin

namespace Uix.Sched

open Machine Links

variable {boot : ℕ} {s s' s'' : Sched} {q bl : List ℕ} {t n : ℕ} {x y : Task}

/-! ## `schedule` -/

/-- what an operation does to the address spaces: each user task keeps its own, and the active one changes with the
current task only -/
structure Spaced (s s' : Sched) : Prop where
  kernelCr3 : s'.kernelCr3 = s.kernelCr3
  users : KeepsUsers s s'
  stays : s'.current = s.current → s'.space = s.space
  enters : s'.current ≠ s.current → ∃ y, s'.tasks s'.current = some y ∧ s'.space = s.entering y

theorem Calm.spaced (h : Calm s s') : Spaced s s' :=
  ⟨h.kernelCr3, h.users, fun _ => h.space, fun hc => absurd h.current hc⟩

theorem Spaced.clocked {c : Bool} (h : Spaced { s with ticksSinceSwitch := n, needResched := c } s') : Spaced s s' :=
  ⟨h.kernelCr3, h.users, h.stays, h.enters⟩

theorem Calm.then (h : Calm s s') (h' : Spaced s' s'') : Spaced s s'' where
  kernelCr3 := h'.kernelCr3.trans h.kernelCr3
  users := h.users.trans h'.users
  stays hc := (h'.stays (hc.trans h.current.symm)).trans h.space
  enters hc := by
    obtain ⟨y, hy, hs⟩ := h'.enters (h.current ▸ hc)
    exact ⟨y, hy, hs.trans (h.entering y)⟩

/-- **`schedule()` and the active space.** -/
theorem schedule_spaced (h : Placed boot s q bl) (hs : s.schedule = .ok s') : Spaced s s' := by
  rcases schedule_space hs with hcalm | ⟨h0, -, hk, hu, y, hy, hsp⟩
  · exact hcalm.spaced
  refine ⟨hk, hu, fun hc => ?_, fun _ => ⟨y, hy, hsp⟩⟩
  -- the task switched in is READY, and so another one than the current task
  rcases schedule_spec h with ⟨s1, _, rfl, _⟩ | ⟨s1, n, q', x, z, h1, hq, _, _, hsw, _⟩
  · exact absurd h.holds.queue h0
  · obtain rfl := Except.ok.inj (h1.symm.trans hs)
    obtain ⟨w, hw, hready⟩ := h.cur
    have hn := (h.ready n).1 (by simp [hq])
    rw [← hsw.current, hc, stateOf_some hw, Option.some.injEq] at hn
    exact absurd hn hready

/-! ## Switches, with the spaces left open -/

theorem schedule_to {s1 s2 s3 : Sched} (h1 : s.reapZombie s.current = .ok s1) (h2 : s1.dequeue = .ok (n, s2))
    (hx : s2.get s.current = .ok x) (hn : n ≠ 0) (h3 : s2.switchOut s.current x = .ok s3) :
    s.schedule = s3.switchIn n := by
  unfold schedule
  simp only [h1, h2, hx, h3, ok_bind, if_neg hn]

/-- a tick at the end of a time slice -/
theorem tick_to (hn : s.needResched = false) (ht : s.ticksSinceSwitch = 1) :
    step s .tick = ({ s with needResched := false, ticksSinceSwitch := 0 } : Sched).schedule := by
  simp only [step, schedTick, hn, ht]
  rfl

theorem sysExit_to {s1 : Sched} {rdi : U64} (hx : s.get s.current = .ok x)
    (h1 : (s.put s.current { x with exitStatus := rdi.setWidth 32, state := .zombie }).taskWakeupChildren x.pid x.ppid =
      .ok s1) : step s (.exit rdi) = (s1.record (.exited s.current rdi)).schedule := by
  simp only [step, sysExit, hx, h1, ok_bind]

/-! ## Operations -/

/-- there is no user task at boot -/
theorem Boots.noUser (h : Boots boot s) (hx : s.tasks t = some x) : x.isUser = false := by
  obtain ⟨kernelCr3, kstack, s₀, _, h, rfl⟩ := h
  have hkeeps : KeepsUsers (statics kernelCr3) s₀ := by
    by_cases h0 : boot = 0
    · simp [taskInit, taskAlloc, h0] at h
    by_cases hk : kstack = 0
    · simp [taskInit, taskAlloc, h0, hk] at h
    simp only [taskInit, taskAlloc, if_neg h0, if_neg hk] at h
    obtain ⟨y, hy, h⟩ := bind_ok.1 h
    obtain rfl := pure_ok.1 h
    have hput := put_calm (get_iff.1 hy) (y := { y with state := .running, pc := .run }) rfl rfl
    refine KeepsUsers.trans ?_ (hput.users.trans (.of_eq rfl))
    refine (kzalloc_calm (statics kernelCr3) boot).users.trans (.of_update rfl fun x' hx' hu => ?_)
    cases hx'
    cases hu
  cases hu : x.isUser with
  | false => rfl
  | true =>
    obtain ⟨y, hy, _⟩ := hkeeps t x hx hu
    cases hy

/-- **One operation and the address spaces.** -/
theorem step_spaced (h : Placed boot s q bl) (hr : s.stateOf s.current = some .running) {o : Op}
    (ho : Possible boot s o) (hq : o.quiet) (hs : step s o = .ok s') : Spaced s s' := by
  rw [step_eq] at hs
  obtain ⟨⟨b, s1⟩, h1, hs⟩ := bind_ok.1 hs
  obtain ⟨n, c, hcalm, _⟩ := entry_calm hq h1
  obtain ⟨w, bl', hp, _⟩ := entry_placed h hr ho h1
  unfold leave at hs
  split_ifs at hs
  · exact (hcalm.then (schedule_spaced hp hs)).clocked
  · obtain rfl := pure_ok.1 hs
    exact hcalm.spaced.clocked

end Uix.Sched
