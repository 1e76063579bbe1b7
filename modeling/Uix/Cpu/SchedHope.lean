/-
Who waits in vain. `SYS_wait4` blocks whenever it finds no ZOMBIE child, also when there is no child left that could
become one.

- `Grounds`: every task in the loop of `wait4(want)` has a child that matches `want` and has not been reaped.
- `Effect.grounds`: every step keeps this, if a `wait4` is only called with such a child. Nobody but the parent reaps a
  child, since pids are unique.
- `wait4_hope_iff`: exactly then no process is blocked without hope.
-/
import Uix.Cpu.SchedHistory

namespace Uix.Sched

open Machine Links Function

/-! ## Children that have not been reaped -/

/-- `x` has a child that matches `want` and is READY, RUNNING, BLOCKED or a ZOMBIE -/
def Hopeful (s : Sched) (x : Task) (want : U64) : Prop :=
  ∃ c y, s.tasks c = some y ∧ Matches x want y ∧ y.state ≠ .dead

/-- every task in the loop of `wait4` has hope -/
def Grounds (s : Sched) : Prop :=
  ∀ t x want status, s.tasks t = some x → x.pc = .wait4 want status → s.Hopeful x want

/-- a child that has not been reaped in `s` is there in `s'` and has not been reaped -/
def Outlives (s s' : Sched) : Prop :=
  ∀ c y, s.tasks c = some y → y.state ≠ .dead → ∃ y', s'.tasks c = some y' ∧ y'.pid = y.pid ∧ y'.ppid = y.ppid ∧
    y'.state ≠ .dead

variable {boot : ℕ} {s s' : Sched} {q bl reg born : List ℕ} {x x' : Task} {want : U64}

theorem Hopeful.outlives (h : s.Hopeful x want) (ho : Outlives s s') (hp : x'.pid = x.pid) : s'.Hopeful x' want := by
  obtain ⟨c, y, hy, hm, hd⟩ := h
  obtain ⟨y', hy', h1, h2, hd'⟩ := ho c y hy hd
  exact ⟨c, y', hy', ⟨by rw [h2, hp]; exact hm.1, by rw [h1]; exact hm.2⟩, hd'⟩

theorem outlives_of_life (h : Related Life s.tasks s'.tasks) : Outlives s s' := fun c y hy hd => by
  obtain ⟨y', hy', hl⟩ := h.after hy
  exact ⟨y', hy', hl.pid, hl.ppid, fun e => hd (hl.dead.1 e)⟩

theorem life_outlives (h : Related Life s.tasks s'.tasks) : Outlives s' s := fun c y' hy' hd => by
  obtain ⟨y, hy, hl⟩ := h.before hy'
  exact ⟨y, hy, hl.pid.symm, hl.ppid.symm, fun e => hd (hl.dead.2 e)⟩

/-! ## What each step does to them -/

theorem Grounds.moves (h : Grounds s) (hm : Moves s.tasks s'.tasks) : Grounds s' := fun t x' want status hx' hpc => by
  obtain ⟨x, hx, hk⟩ := hm.before hx'
  exact (h t x want status hx ((hk.wait4 want status).1 hpc)).outlives (outlives_of_life (Moves.life hm)) hk.pid

theorem Grounds.creates {t : ℕ} {ppid : U64} {evs : List Event} (h : Grounds s) (hc : Creates s s' q bl t ppid evs)
    (hf : Fresh s t) : Grounds s' := by
  -- nobody but `t` is touched, and `t` does not wait
  have key : t ≠ 0 → (∀ u, u ≠ t → s'.tasks u = s.tasks u) → (∀ x, s'.tasks t = some x → x.pc = .fresh) →
      Grounds s' := by
    intro h0 hother hnew u x want status hx hpc
    have hft := (hf.resolve_left h0).1
    have hu : u ≠ t := fun e => by
      rw [hnew x (e ▸ hx)] at hpc
      simp at hpc
    refine (h u x want status (hother u hu ▸ hx) hpc).outlives (fun c y hy hd => ⟨y, ?_, rfl, rfl, hd⟩) rfl
    have hct : c ≠ t := fun e => by
      rw [e, hft] at hy
      simp at hy
    rw [hother c hct, hy]
  rcases hc with rfl | ⟨h0, rfl⟩ | ⟨h0, y, hc, _⟩
  · exact h
  · refine key h0 (fun u hu => ?_) fun x hx => ?_
    · simp [kfreeTask, kzalloc, setLists, put, hu]
    · simp [kfreeTask] at hx
  · refine key h0 (fun u hu => by rw [hc.tasks, update_of_ne hu]) fun x hx => ?_
    rw [hc.tasks, update_self, Option.some.injEq] at hx
    rw [← hx, hc.pc]

/-- an exiting task stays in its parent's hopes until it is reaped -/
theorem Grounds.exits (h : Grounds s) (hp : Placed boot s q bl) (hx : s.tasks s.current = some x)
    (hxs : x.state = .running) (hpc : x.pc = .run) (st : BitVec 32)
    (ht : s'.tasks = woken (update s.tasks s.current (some { x with exitStatus := st, state := .zombie }))
      x.pid x.ppid bl) : Grounds s' := by
  obtain ⟨hcur, hothers⟩ := exited_kept hp hx hxs st ht
  have hout : Outlives s s' := fun c y hy hd => by
    by_cases hc : c = s.current
    · subst hc
      obtain rfl := Option.some.inj (hx.symm.trans hy)
      exact ⟨_, hcur, rfl, rfl, by simp⟩
    · obtain ⟨y', hy', hk⟩ := rel_after (hothers c hc) hy
      exact ⟨y', hy', hk.pid, hk.ppid, fun e => hd (hk.dead.1 e)⟩
  intro u v' want status hv' hpc'
  by_cases hu : u = s.current
  · rw [hu, hcur, Option.some.injEq] at hv'
    rw [← hv'] at hpc'
    simp [hpc] at hpc'
  · obtain ⟨v, hv, hk⟩ := rel_before (hothers u hu) hv'
    exact (h u v want status hv ((hk.wait4 want status).1 hpc')).outlives hout hk.pid

/-- the child that is reaped was the hope of nobody but its parent, who goes back to its own code -/
theorem Grounds.reaps {z : ℕ} {y : Task} (h : Grounds s) (hw : Waits s reg)
    (hinj : ∀ t u a b, s.tasks t = some a → s.tasks u = some b → a.pid = b.pid → t = u)
    (hx : s.tasks s.current = some x) (hy : s.tasks z = some y) (hrp : Reapable x.pid want y)
    (ht : s'.tasks = update (update s.tasks z (some { y with state := .dead })) s.current
      (some { x with pc := .run })) : Grounds s' := by
  have hcur : s'.tasks s.current = some { x with pc := .run } := by rw [ht, update_self]
  have hother : ∀ u, u ≠ s.current → u ≠ z → s'.tasks u = s.tasks u := fun u hu huz => by
    rw [ht, update_of_ne hu, update_of_ne huz]
  intro u v want' status hv hpc
  have hu : u ≠ s.current := fun e => by
    rw [e, hcur, Option.some.injEq] at hv
    simp [← hv] at hpc
  have huz : u ≠ z := fun e => by
    rw [e, ht, update_of_ne (e ▸ hu), update_self, Option.some.injEq] at hv
    rw [← hv] at hpc
    exact (hw.alive z y want' status hy hpc).1 hrp.1
  rw [hother u hu huz] at hv
  obtain ⟨c, a, ha, hm, hd⟩ := h u v want' status hv hpc
  have hcz : c ≠ z := fun e => by
    obtain rfl := Option.some.inj (hy.symm.trans (e ▸ ha))
    exact hu (hinj u s.current v x hv hx (hm.1.symm.trans hrp.2.1))
  by_cases hc : c = s.current
  · subst hc
    obtain rfl := Option.some.inj (hx.symm.trans ha)
    exact ⟨_, _, hcur, hm, hd⟩
  · exact ⟨c, a, (hother c hc hcz).trans ha, hm, hd⟩

theorem Grounds.blocks (h : Grounds s) (hx : s.tasks s.current = some x) (hxs : x.state = .running) {status : U64}
    (ht : s'.tasks = update s.tasks s.current
      (some { x with state := .blocked, blockOn := 0, pc := .wait4 want status })) (hope : s.Hopeful x want) :
    Grounds s' := by
  have hout := outlives_of_life (slept_life hx hxs ht)
  intro u v want' status' hv hpc
  by_cases hu : u = s.current
  · rw [hu, ht, update_self, Option.some.injEq] at hv
    subst hv
    obtain ⟨rfl, rfl⟩ : want = want' ∧ status = status' := by simpa using hpc
    exact hope.outlives hout rfl
  · rw [ht, update_of_ne hu] at hv
    exact (h u v want' status' hv hpc).outlives hout rfl

/-- a `wait4` is called with a child it can hope for -/
def Grounded (s : Sched) : Op → Prop
  | .wait4 want _ => ∀ x, s.tasks s.current = some x → s.Hopeful x want
  | _ => True

/-- **Every step keeps the hopes of those who wait.** -/
theorem Effect.grounds {o : Op} (h : Effect o s s' bl) (hp : Placed boot s q bl) (hw : Waits s reg) (hh : Hist s born)
    (hg : Grounds s) (ho : Grounded s o) : Grounds s' := by
  have hlen : born.length < 2 ^ 64 := length_lt_fuel hh.nodup fun u hu => hp.addr u ((hh.all u).1 hu)
  cases h with
  | moved hm hr => exact hg.moves hm
  | created t q ppid evs hf hc hev => exact hg.creates hc hf
  | exited s1 x rdi hx hxs hpc ht hz hna hat hnp hlog hm hr => exact (hg.exits hp hx hxs hpc _ ht).moves hm
  | reaped z x y want status hx hxs hy hrp ht hz hna hat hnp hlog =>
    exact hg.reaps hw (fun t u a b ha hb he => hh.pid_inj hlen ha hb he) hx hy hrp ht
  | slept s1 x want status hx hxs hop hno ht hz hr1 hm hr =>
    refine (hg.blocks hx hxs ht ?_).moves hm
    rcases hop with rfl | ⟨rfl, hpc⟩
    · exact ho x hx
    · exact hg s.current x want status hx hpc

/-! ## Runs -/

/-- the states of legal runs of processes from boot in which every step meets the condition `C` -/
inductive ReachIf (C : Sched → Op → Prop) (boot : ℕ) : Sched → Prop where
  | init (kernelCr3 : U64) (kstack : ℕ) {s : Sched} : boot < 2 ^ 64 → (statics kernelCr3).taskInit boot kstack = .ok s →
      ReachIf C boot s.schedInit
  | step {s s' : Sched} (o : Op) : ReachIf C boot s → C s o → o.process → Legal boot s o → step s o = .ok s' →
      ReachIf C boot s'

theorem ReachIf.reach {C : Sched → Op → Prop} (h : ReachIf C boot s) : Reach Op.process boot s := by
  induction h with
  | init kernelCr3 kstack h64 hs => exact .init kernelCr3 kstack h64 hs
  | step o _ _ hpr ho hstep ih => exact .step o ih hpr ho hstep

theorem Booted.grounds (h : Booted boot s x) : Grounds s := fun t y want status hy hpc => by
  rw [h.tasks] at hy
  by_cases ht : t = boot
  · rw [ht, update_self, Option.some.injEq] at hy
    rw [← hy, h.pc] at hpc
    simp at hpc
  · rw [update_of_ne ht] at hy
    simp at hy

theorem reachIf_grounds (h : ReachIf Grounded boot s) : Grounds s := by
  induction h with
  | init _ _ _ hs =>
    obtain ⟨x, hx⟩ := taskInit_spec hs
    exact hx.grounds
  | step o hs hC hpr ho hstep ih =>
    obtain ⟨reg, hw⟩ := reach_waits hs.reach
    obtain ⟨born, hh⟩ := reach_hist hs.reach
    obtain ⟨q, bl, hp, hr⟩ := reach_steady hs.reach
    obtain ⟨s1, h1, h2⟩ := step_effect hp hr hw ho.possible hpr
    obtain rfl := Except.ok.inj (h1.symm.trans hstep)
    exact h2.effect.grounds hp hw hh ih hC

/-- every blocked process is in some `wait4(want)` and has a child that matches `want` and has not been reaped -/
def NoneInVain (s : Sched) : Prop :=
  ∀ t x, s.tasks t = some x → x.state = .blocked → ∃ want status, x.pc = .wait4 want status ∧ s.Hopeful x want

theorem Grounds.noneInVain (h : Grounds s) (hw : Waits s reg) : NoneInVain s := fun t x hx hb => by
  obtain ⟨_, want, status, hpc, _⟩ := hw.asleep t x hx hb
  exact ⟨want, status, hpc, h t x want status hx hpc⟩

/-- a `wait4` without such a child blocks for good -/
theorem wait4_in_vain (hp : Placed boot s q bl) (hr : s.stateOf s.current = some .running) (hw : Waits s reg)
    (hb : s.current ≠ boot) (hx : s.tasks s.current = some x) {status : U64} (hno : ¬ s.Hopeful x want)
    (hs : s.wait4Round want status = .ok s') : ¬ NoneInVain s' := by
  have hxs : x.state = .running := by
    rw [stateOf_some hx, Option.some.injEq] at hr
    exact hr
  rcases wait4Round_cases hp hr hx want status with ⟨e, _, he⟩ | ⟨z, y, _, _, _, hy, hrp, _⟩ | ⟨_, he⟩
  · rw [hs] at he
    simp at he
  · exact absurd ⟨z, y, hy, hrp.2, by simp [hrp.1]⟩ hno
  · obtain ⟨s1, h1, hp1, ht1, hc1, hz1, _⟩ := taskBlockAny_spec hp hr hb hx want status
    have hnd : s1.stateOf s1.current ≠ some .dead := by
      rw [hc1, stateOf, ht1, update_self]
      simp
    obtain ⟨s2, q2, h2, hp2, _, hm, _⟩ := schedule_moves hp1 (hz1.trans hw.dead) hnd
    obtain rfl := Except.ok.inj ((he.trans (h1.trans h2)).symm.trans hs)
    obtain ⟨x', hx', hk⟩ := hm.after (show s1.tasks s.current = _ by rw [ht1, update_self])
    have hxb : x'.state = .blocked := by
      have := (hp2.blocked s.current).1 (by simp)
      rw [stateOf_some hx', Option.some.injEq] at this
      exact this
    intro hall
    obtain ⟨want', status', hpc, hope⟩ := hall s.current x' hx' hxb
    obtain ⟨rfl, rfl⟩ : want = want' ∧ status = status' := by
      simpa using (hk.wait4 want' status').1 hpc
    exact hno ((hope.outlives (life_outlives (Moves.life hm)) hk.pid.symm).outlives
      (life_outlives (slept_life hx hxs ht1)) rfl)

/-- **`wait4` without hope.** In every run of processes in which each `wait4` is called with a matching child that has
not been reaped, no process is ever blocked without such a child; and a step keeps it so just if it meets that
condition. -/
theorem wait4_hope_iff (boot : ℕ) (s : Sched) (hs : ReachIf Grounded boot s) :
    NoneInVain s ∧ ∀ o s', o.process → Legal boot s o → step s o = .ok s' → (NoneInVain s' ↔ Grounded s o) := by
  obtain ⟨q, bl, hp, hr⟩ := reach_steady hs.reach
  obtain ⟨reg, hw⟩ := reach_waits hs.reach
  refine ⟨(reachIf_grounds hs).noneInVain hw, fun o s' hpr ho hstep => ⟨fun h => ?_, fun hC => ?_⟩⟩
  · cases o with
    | wait4 want status => exact fun x hx => by_contra fun hno => wait4_in_vain hp hr hw ho.possible.2 hx hno hstep h
    | _ => trivial
  · have hs' := ReachIf.step o hs hC hpr ho hstep
    obtain ⟨reg', hw'⟩ := reach_waits hs'.reach
    exact (reachIf_grounds hs').noneInVain hw'

/-- a process that never forked waits; it is blocked and nobody will wake it -/
theorem childless_wait : ∃ s x, Reach Op.process 0x1000 s ∧ s.tasks 0x2000 = some x ∧ x.state = .blocked ∧
    x.pc = .wait4 (-1) 0 ∧ ¬ s.Hopeful x (-1) := by
  have h1 : Reach Op.process 0x1000 _ := Reach.init 1 0x4000 (by decide) rfl
  have h2 := Reach.step (.userTaskCreate 0x2000 0x8000 5) h1
    trivial ⟨⟨⟨_, rfl, rfl⟩, Or.inr ⟨rfl, by decide⟩⟩, by decide⟩ rfl
  have h3 := Reach.step .start h2 trivial ⟨rfl, by decide⟩ rfl
  have h4 := Reach.step (.wait4 (-1) 0) h3 trivial ⟨⟨⟨_, rfl, rfl⟩, by decide⟩, by decide⟩ rfl
  refine ⟨_, _, h4, rfl, rfl, rfl, ?_⟩
  -- a child would have been forked, and nobody has forked
  rintro ⟨c, y, hy, hm, _⟩
  obtain ⟨born, hh⟩ := reach_hist h4
  obtain ⟨_, t, x, _, _, hf⟩ := hh.forks c y hy (by rw [hm.1]; decide)
  have hlog : Event.forked t c ∈ [Event.enqueued 0x2000 2] := hf
  simp at hlog

/-- a process forks and waits; its child is READY -/
theorem wait4_hope_forked : ∃ s, ReachIf Grounded 0x1000 s ∧ s.stateOf 0x2000 = some .blocked ∧ NoneInVain s := by
  have h1 : ReachIf Grounded 0x1000 _ := ReachIf.init 1 0x4000 (by decide) rfl
  have h2 := ReachIf.step (.userTaskCreate 0x2000 0x8000 5) h1 trivial trivial
    ⟨⟨⟨_, rfl, rfl⟩, Or.inr ⟨rfl, by decide⟩⟩, by decide⟩ rfl
  have h3 := ReachIf.step .start h2 trivial trivial ⟨rfl, by decide⟩ rfl
  have h4 := ReachIf.step (.fork 0x3000 0xc000 6) h3
    trivial trivial ⟨⟨⟨_, rfl, rfl⟩, Or.inr ⟨rfl, by decide⟩⟩, by decide⟩ rfl
  have h5 := ReachIf.step (.wait4 (-1) 0x7f0000) h4
    (fun x hx => ⟨0x3000, _, rfl, ⟨by rw [← Option.some.inj hx], Or.inl rfl⟩, by decide⟩) trivial
    ⟨⟨⟨_, rfl, rfl⟩, by decide⟩, by decide⟩ rfl
  exact ⟨_, h5, rfl, (wait4_hope_iff 0x1000 _ h5).1⟩

end Uix.Sched
