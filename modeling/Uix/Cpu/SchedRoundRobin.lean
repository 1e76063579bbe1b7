/-
Round robin: how long a READY task waits.

A kernel entry is cut at its call of `schedule()` (`entry`, `step_eq`), so that the calls of a run can be counted and
the task each of them dispatches can be read off (`Goes`).

- `entry_placed`: what comes before the call only appends to the run queue.
- `Goes.turn`: the task at position `k` is dispatched by call number `k + 1`, and by none before it.
- `Goes.ticks_le`: of two ticks one calls `schedule()`, whatever happens between them.
- `round_robin`: so a READY task at position `k` is dispatched within `2 (k + 1)` ticks.
-/
import Uix.Cpu.SchedCalm

namespace Uix.Sched

open Machine Links List Function

/-! ## Kernel entries up to `schedule()` -/

/-- a round of `wait4` up to its call of `schedule()`, and whether it comes to one; `wait4Round_eq` puts the two
together -/
def wait4Entry (s : Sched) (want status : U64) : Except Stop (Bool × Sched) := do
  let t := s.current
  let x ← s.get t
  let z ← s.taskFindZombie x.pid want
  if z ≠ 0 then
    let y ← s.get z
    let stored := if status ≠ 0 then some (y.exitStatus.signExtend 64) else none
    let s := s.put z { y with state := .dead }
    let x ← s.get t
    pure (false, (s.put t { x with pc := .run }).record (.waited t want y.pid stored))
  else
    let x ← s.get t
    let s := s.put t { x with state := .blocked, blockOn := 0, pc := .wait4 want status }
    let s ← s.setNext t s.lists.blockedList
    pure (true, s.setLists { s.lists with blockedList := t })

/-- the next tick calls `schedule()` -/
def Due (s : Sched) : Prop := s.needResched = true ∨ timeSlice ≤ s.ticksSinceSwitch + 1

instance (s : Sched) : Decidable s.Due := inferInstanceAs (Decidable (_ ∨ _))

/-- an operation up to its call of `schedule()`, and whether it comes to one -/
def entry (s : Sched) : Op → Except Stop (Bool × Sched)
  | .taskCreate t kstack => do pure (false, ← s.taskCreate t kstack)
  | .userTaskCreate t kstack cr3 => do pure (false, ← s.userTaskCreate t kstack cr3)
  | .fork t kstack cr3 => do pure (false, ← s.doFork t kstack cr3)
  | .start => pure (true, s)
  | .tick =>
    if s.Due then pure (true, { s with needResched := false, ticksSinceSwitch := 0 })
    else pure (false, { s with ticksSinceSwitch := s.ticksSinceSwitch + 1 })
  | .yield => pure (false, s.taskYield)
  | .exit rdi => do
    let t := s.current
    let x ← s.get t
    let s := s.put t { x with exitStatus := rdi.setWidth 32, state := .zombie }
    let s ← s.taskWakeupChildren x.pid x.ppid
    pure (true, s.record (.exited t rdi))
  | .taskExit => do pure (true, ← s.setState s.current .dead)
  | .wait4 want status => s.wait4Entry want status
  | .resume => do
    let x ← s.get s.current
    match x.pc with
    | .wait4 want status => s.wait4Entry want status
    | _ => pure (false, s)

/-- the call of `schedule()`, if it comes to one -/
def leave (r : Bool × Sched) : Except Stop Sched := if r.1 then r.2.schedule else pure r.2

theorem wait4Round_eq (s : Sched) (want status : U64) :
    s.wait4Round want status = s.wait4Entry want status >>= leave := by
  simp only [wait4Round, wait4Entry, taskBlockAny, bind_assoc]
  refine bind_congr fun x => bind_congr fun z => ?_
  by_cases hz : z ≠ 0
  · simp only [if_pos hz, bind_assoc, pure_bind]
    rfl
  · simp only [if_neg hz, bind_assoc, pure_bind]
    rfl

theorem bind_leave_quiet (x : Except Stop Sched) : (do pure (false, ← x)) >>= leave = x := by
  cases x <;> rfl

/-- **An operation is its entry, and then `schedule()` if the entry comes to it.** -/
theorem step_eq (s : Sched) (o : Op) : step s o = s.entry o >>= leave := by
  cases o with
  | taskCreate t kstack => exact (bind_leave_quiet _).symm
  | userTaskCreate t kstack cr3 => exact (bind_leave_quiet _).symm
  | fork t kstack cr3 => exact (bind_leave_quiet _).symm
  | start => rfl
  | tick =>
    simp only [step, entry, schedTick, Due]
    by_cases hn : s.needResched = true
    · simp only [hn, if_true, true_or]
      rfl
    · by_cases ht : timeSlice ≤ s.ticksSinceSwitch + 1
      · simp only [hn, ht, or_true, if_true, Bool.false_eq_true, if_false, not_lt.2 ht]
        rfl
      · simp only [hn, ht, not_le.1 ht, if_true, Bool.false_eq_true, if_false, or_self]
        rfl
  | yield => rfl
  | exit rdi => simp only [step, entry, sysExit, bind_assoc, pure_bind, leave, if_true]
  | taskExit => simp only [step, entry, taskExit, bind_assoc, pure_bind, leave, if_true]
  | wait4 want status => exact wait4Round_eq s want status
  | resume =>
    simp only [step, entry, bind_assoc]
    refine congrArg _ (funext fun x => ?_)
    cases x.pc with
    | fresh => rfl
    | run => rfl
    | wait4 want status => exact wait4Round_eq s want status

/-! ## The run queue -/

section Queue

variable {boot : ℕ} {s s1 s' : Sched} {q bl : List ℕ} {o : Op} {b : Bool}

/-- the state in which an entry ends: something may have been appended to the run queue -/
def Entered (boot : ℕ) (q : List ℕ) (r : Bool × Sched) : Prop :=
  ∃ w bl, Placed boot r.2 (q ++ w) bl ∧ (r.1 = false → r.2.stateOf r.2.current = some .running)

theorem Placed.entered (h : Placed boot s q bl) (hr : b = false → s.stateOf s.current = some .running) :
    Entered boot q (b, s) :=
  ⟨[], bl, by rwa [append_nil], hr⟩

theorem create_entered {t : ℕ} {ppid : U64} {evs : List Event} {x : Except Stop Sched}
    (hx : ∃ s', x = .ok s' ∧ Creates s s' q bl t ppid evs) (h : Placed boot s q bl)
    (hr : s.stateOf s.current = some .running) (hf : Fresh s t) {r : Bool × Sched}
    (hs : (do pure (false, ← x)) = Except.ok r) : Entered boot q r := by
  obtain ⟨s', rfl, hc⟩ := hx
  obtain ⟨w, hp, hcur⟩ := hc.placed h hf
  obtain rfl := pure_ok.1 hs
  exact ⟨w, bl, hp, fun _ => hcur.trans hr⟩

theorem wait4Entry_placed (h : Placed boot s q bl) (hr : s.stateOf s.current = some .running) (hb : s.current ≠ boot)
    {want status : U64} {r : Bool × Sched} (hs : s.wait4Entry want status = .ok r) : Entered boot q r := by
  obtain ⟨x, hx, hxs⟩ := exists_of_stateOf hr
  rw [wait4Entry, get_ok hx, ok_bind] at hs
  obtain ⟨z, hz, hs⟩ := bind_ok.1 hs
  by_cases h0 : z ≠ 0
  · obtain ⟨y, hy, hrp⟩ := findZombieLoop_ok hz h0
    have hne : s.current ≠ z := fun e => by
      rw [e, stateOf_some hy, hrp.1] at hr
      simp at hr
    have hx' : (s.put z { y with state := .dead }).tasks s.current = some x := (update_of_ne hne _ _).trans hx
    simp only [if_pos h0, get_ok hy, ok_bind, get_ok hx'] at hs
    obtain rfl := pure_ok.1 hs
    have hcur : ((s.put z { y with state := .dead }).put s.current { x with pc := .run }).tasks s.current =
        some { x with pc := .run } := update_self ..
    exact Placed.entered (h.reaps hr hx hy hrp.1 rfl rfl rfl rfl) fun _ => (stateOf_some hcur).trans (congrArg some hxs)
  · have hx' : (s.put s.current { x with state := .blocked, blockOn := 0, pc := .wait4 want status }).tasks s.current =
        some { x with state := .blocked, blockOn := 0, pc := .wait4 want status } := update_self ..
    simp only [if_neg h0, ok_bind, setNext_ok hx'] at hs
    obtain rfl := pure_ok.1 hs
    exact Placed.entered (h.blocks hr hb rfl rfl rfl rfl rfl) (by simp)

/-- **What comes before `schedule()` only appends to the run queue.** -/
theorem entry_placed (h : Placed boot s q bl) (hr : s.stateOf s.current = some .running) (ho : Possible boot s o)
    {r : Bool × Sched} (hs : s.entry o = .ok r) : Entered boot q r := by
  obtain ⟨x, hx, _⟩ := exists_of_stateOf hr
  cases o with
  | taskCreate t kstack => exact create_entered (taskCreate_spec h ho.2 kstack) h hr ho.2 hs
  | userTaskCreate t kstack cr3 => exact create_entered (userTaskCreate_spec h ho.2 kstack cr3) h hr ho.2 hs
  | fork t kstack cr3 => exact create_entered (doFork_spec h ho.2 hx kstack cr3) h hr ho.2 hs
  | start =>
    obtain rfl := pure_ok.1 hs
    exact h.entered fun _ => hr
  | tick =>
    rw [entry] at hs
    split_ifs at hs with hd
    · obtain rfl := pure_ok.1 hs
      exact Placed.entered (h.congr h.holds (fun _ => rfl) rfl rfl) fun _ => hr
    · obtain rfl := pure_ok.1 hs
      exact Placed.entered (h.congr h.holds (fun _ => rfl) rfl rfl) fun _ => hr
  | yield =>
    obtain rfl := pure_ok.1 hs
    exact Placed.entered (h.congr h.holds (fun _ => rfl) rfl rfl) fun _ => hr
  | exit rdi =>
    have h1 : Placed boot (s.put s.current { x with exitStatus := rdi.setWidth 32, state := .zombie }) q bl :=
      h.ends hr ho.2 rfl (Or.inr rfl) rfl rfl rfl
    obtain ⟨s2, w, bl2, h2, h3, _⟩ := taskWakeupChildren_spec h1 (h.awake hr) x.pid x.ppid
    simp only [entry, get_ok hx, ok_bind, h2] at hs
    obtain rfl := pure_ok.1 hs
    exact ⟨w, bl2, h3.congr h3.holds (fun _ => rfl) rfl rfl, by simp⟩
  | taskExit =>
    simp only [entry, setState_ok hx, ok_bind] at hs
    obtain rfl := pure_ok.1 hs
    exact Placed.entered (h.ends hr ho.2 rfl (Or.inl rfl) rfl rfl rfl) (by simp)
  | wait4 want status => exact wait4Entry_placed h hr ho.2 hs
  | resume =>
    simp only [entry, get_ok hx, ok_bind] at hs
    cases hpc : x.pc with
    | fresh =>
      rw [hpc] at hs
      obtain rfl := pure_ok.1 hs
      exact h.entered fun _ => hr
    | run =>
      rw [hpc] at hs
      obtain rfl := pure_ok.1 hs
      exact h.entered fun _ => hr
    | wait4 want status =>
      rw [hpc] at hs
      exact wait4Entry_placed h hr ho hs

end Queue

/-! ## The clock -/

section Clock

variable {s s' : Sched} {o : Op} {b : Bool}

theorem wait4Entry_calm {want status : U64} {b : Bool} (h : s.wait4Entry want status = .ok (b, s')) : Calm s s' := by
  obtain ⟨x, _, h⟩ := bind_ok.1 h
  obtain ⟨z, _, h⟩ := bind_ok.1 h
  by_cases hz : z ≠ 0
  · rw [if_pos hz] at h
    obtain ⟨y, hy, h⟩ := bind_ok.1 h
    obtain ⟨x1, hx1, h⟩ := bind_ok.1 h
    cases h
    have hdead := put_calm (get_iff.1 hy) (y := { y with state := .dead }) rfl rfl
    have hrun := put_calm (get_iff.1 hx1) (y := { x1 with pc := .run }) rfl rfl
    exact (hdead.trans hrun).record _
  · rw [if_neg hz] at h
    obtain ⟨x1, hx1, h⟩ := bind_ok.1 h
    obtain ⟨s1, h1, h⟩ := bind_ok.1 h
    cases h
    have hput := put_calm (get_iff.1 hx1)
      (y := { x1 with state := .blocked, blockOn := 0, pc := .wait4 want status }) rfl rfl
    exact (hput.trans (setNext_calm h1)).setLists _

/-- the operations that create no user task -/
def Op.quiet : Op → Prop
  | .userTaskCreate .. => False
  | .fork .. => False
  | _ => True

def Op.isTick : Op → Bool
  | .tick => true
  | _ => false

/-- what comes before `schedule()` loads no space; only a tick and `task_yield` set the clock before it -/
theorem entry_calm (ho : o.quiet) (h : s.entry o = .ok (b, s')) :
    ∃ n c, Calm { s with ticksSinceSwitch := n, needResched := c } s' ∧
      (o.isTick = false → o ≠ .yield → (n, c) = s.clock) := by
  have calm : Calm s s' → ∃ n c, Calm { s with ticksSinceSwitch := n, needResched := c } s' ∧
      (o.isTick = false → o ≠ .yield → (n, c) = s.clock) := fun hc => ⟨_, _, hc, fun _ _ => rfl⟩
  cases o with
  | taskCreate t kstack =>
    obtain ⟨s1, h1, h⟩ := bind_ok.1 h
    cases h
    exact calm (taskCreate_calm h1)
  | userTaskCreate t kstack cr3 => exact ho.elim
  | fork t kstack cr3 => exact ho.elim
  | start =>
    cases h
    exact calm (.refl s)
  | tick =>
    simp only [entry] at h
    split_ifs at h
    · cases h
      exact ⟨0, false, .refl _, fun hc => by cases hc⟩
    · cases h
      exact ⟨s.ticksSinceSwitch + 1, s.needResched, .refl _, fun hc => by cases hc⟩
  | yield =>
    cases h
    exact ⟨0, true, .refl _, fun _ hc => absurd rfl hc⟩
  | exit rdi =>
    obtain ⟨x, hx, h⟩ := bind_ok.1 h
    obtain ⟨s1, h1, h⟩ := bind_ok.1 h
    cases h
    have hput := put_calm (get_iff.1 hx) (y := { x with exitStatus := rdi.setWidth 32, state := .zombie }) rfl rfl
    exact calm ((hput.trans (wakeupLoop_calm h1)).record _)
  | taskExit =>
    obtain ⟨s1, h1, h⟩ := bind_ok.1 h
    cases h
    exact calm (setState_calm h1)
  | wait4 want status => exact calm (wait4Entry_calm h)
  | resume =>
    obtain ⟨x, hx, h⟩ := bind_ok.1 h
    cases hpc : x.pc with
    | fresh =>
      rw [hpc] at h
      cases h
      exact calm (.refl s)
    | run =>
      rw [hpc] at h
      cases h
      exact calm (.refl s)
    | wait4 want status =>
      rw [hpc] at h
      exact calm (wait4Entry_calm h)

theorem schedule_clock (h : s.schedule = .ok s') : s'.clock = s.clock := by
  rcases schedule_space h with hcalm | ⟨_, hc, _⟩
  · exact hcalm.clock
  · exact hc

theorem step_clock (hq : o.quiet) (ht : o.isTick = false) (hy : o ≠ .yield) (hs : step s o = .ok s') :
    s'.clock = s.clock := by
  rw [step_eq] at hs
  obtain ⟨⟨b, s1⟩, h1, hs⟩ := bind_ok.1 hs
  obtain ⟨n, c, hcalm, hc⟩ := entry_calm hq h1
  have hs1 : s1.clock = s.clock := hcalm.clock.trans (hc ht hy)
  unfold leave at hs
  split_ifs at hs
  · exact (schedule_clock hs).trans hs1
  · exact pure_ok.1 hs ▸ hs1

/-- **Nothing but a tick unsets the clock.** -/
theorem Due.step (h : s.Due) (ho : o.isTick = false) (hs : step s o = .ok s') : s'.Due := by
  have key : s'.clock = s.clock → s'.Due := fun hc => by
    simp only [clock, Prod.mk.injEq] at hc
    rwa [Due, hc.1, hc.2]
  by_cases hy : o = .yield
  · subst hy
    obtain rfl := Except.ok.inj hs
    exact Or.inl rfl
  by_cases hq : o.quiet
  · exact key (step_clock hq ho hy hs)
  cases o with
  | userTaskCreate t kstack cr3 =>
    by_cases h0 : t = 0 ∨ kstack = 0
    · exact key (userTaskCreate_refused h0 hs).clock
    · exact key (userTaskCreate_users h0 hs).2.2.2.2
  | fork t kstack cr3 =>
    by_cases h0 : t = 0 ∨ kstack = 0
    · exact key (doFork_refused h0 hs).clock
    · exact key (doFork_users h0 hs).2.2.2.2
  | _ => exact absurd trivial hq

/-- a tick calls `schedule()`, or the next one will -/
theorem tick_due {r : Bool × Sched} (h : s.entry .tick = .ok r) (hs : leave r = .ok s') :
    r.1 = true ∨ (¬ s.Due ∧ r.1 = false ∧ s'.Due) := by
  rw [entry] at h
  split_ifs at h with hd
  · exact Or.inl (pure_ok.1 h ▸ rfl)
  · obtain rfl := pure_ok.1 h
    obtain rfl := pure_ok.1 hs
    refine Or.inr ⟨hd, rfl, Or.inr ?_⟩
    simp only [timeSlice]
    omega

end Clock

/-! ## Runs and the tasks they dispatch -/

/-- a legal run from a state, with the tasks its calls of `schedule()` dispatch, in order -/
inductive Goes (boot : ℕ) : Sched → List Op → List ℕ → Sched → Prop where
  | nil (s : Sched) : Goes boot s [] [] s
  | quiet {s s' s'' : Sched} {o : Op} {ops : List Op} {ds : List ℕ} : Legal boot s o →
      s.entry o = .ok (false, s') → Goes boot s' ops ds s'' → Goes boot s (o :: ops) ds s''
  | turn {s s1 s' s'' : Sched} {o : Op} {ops : List Op} {ds : List ℕ} : Legal boot s o →
      s.entry o = .ok (true, s1) → s1.schedule = .ok s' → Goes boot s' ops ds s'' →
      Goes boot s (o :: ops) (s'.current :: ds) s''

section Goes

variable {boot : ℕ} {s s' : Sched} {q bl : List ℕ} {ops : List Op} {ds : List ℕ}

/-- the runs are those of `step` -/
theorem Goes.reach {P : Op → Prop} (h : Goes boot s ops ds s') (hs : Reach P boot s) (hP : ∀ o ∈ ops, P o) :
    Reach P boot s' := by
  induction h with
  | nil s => exact hs
  | @quiet s s1 s' o ops ds ho he _ ih =>
    exact ih (.step o hs (hP o (by simp)) ho (by rw [step_eq, he]; rfl)) fun o' ho' => hP o' (by simp [ho'])
  | @turn s s1 s2 s' o ops ds ho he hsc _ ih =>
    exact ih (.step o hs (hP o (by simp)) ho (by rw [step_eq, he]; exact hsc)) fun o' ho' => hP o' (by simp [ho'])

/-- **The queue is served in order.** -/
theorem Goes.in_turn (h : Goes boot s ops ds s') (hp : Placed boot s q bl) (hr : s.stateOf s.current = some .running)
    {k t : ℕ} (hk : q[k]? = some t) : (∀ j < k, ds[j]? ≠ some t) ∧ (k < ds.length → ds[k]? = some t) := by
  -- the position falls by one with every call, and the queue only grows at its end
  induction h generalizing q bl k with
  | nil s => simp
  | quiet ho he _ ih =>
    obtain ⟨w, bl', hp', hr'⟩ := entry_placed hp hr ho.possible he
    refine ih hp' (hr' rfl) ?_
    rw [getElem?_append_left (List.getElem?_eq_some_iff.1 hk).1, hk]
  | @turn s s1 s2 s' o ops ds ho he hsc _ ih =>
    obtain ⟨w, bl', hp', _⟩ := entry_placed hp hr ho.possible he
    obtain ⟨s3, w', hs3, hp3, hr3, hcur⟩ := schedule_placed hp'
    obtain rfl := Except.ok.inj (hs3.symm.trans hsc)
    cases q with
    | nil => simp at hk
    | cons n q =>
      have hn : s3.current = n := hcur n (by simp)
      cases k with
      | zero =>
        simp only [getElem?_cons_zero, Option.some.injEq] at hk
        simp [hn, hk]
      | succ k =>
        have hk' : q[k]? = some t := by simpa using hk
        have htn : n ≠ t := fun e => by
          have := hp.holds.apart
          have := mem_of_getElem? hk'
          grind
        obtain ⟨h1, h2⟩ := ih hp3 hr3 (k := k) (by
          simp only [cons_append, tail_cons, append_assoc]
          rw [getElem?_append_left (List.getElem?_eq_some_iff.1 hk').1, hk'])
        refine ⟨fun j hj => ?_, fun hl => by simpa using h2 (by simpa using hl)⟩
        cases j with
        | zero => simpa [hn] using htn
        | succ j => simpa using h1 j (by omega)

/-- **Two ticks, one call.** Whatever happens between them. -/
theorem Goes.ticks_le (h : Goes boot s ops ds s') :
    ops.countP Op.isTick ≤ 2 * ds.length + if s.Due then 0 else 1 := by
  induction h with
  | nil s => simp
  | @quiet s s1 s' o ops ds ho he _ ih =>
    cases hti : o.isTick with
    | true =>
      obtain rfl : o = .tick := by cases o <;> simp_all [Op.isTick]
      obtain ⟨hd, _, hd'⟩ := (tick_due he rfl).resolve_left (by simp)
      rw [if_pos hd'] at ih
      rw [if_neg hd, countP_cons_of_pos hti]
      omega
    | false =>
      have hd : s.Due → s1.Due := fun hd => hd.step hti (by rw [step_eq, he]; rfl)
      rw [countP_cons_of_neg (by simp [hti])]
      split_ifs at ih ⊢ <;> first | omega | tauto
  | @turn s s1 s2 s' o ops ds ho he hsc _ ih =>
    have h1 : (o :: ops).countP Op.isTick ≤ ops.countP Op.isTick + 1 := by
      rw [countP_cons]
      split_ifs <;> omega
    rw [length_cons]
    split_ifs at ih ⊢ <;> omega

/-- **Round robin.** In every state of a run from boot, the READY task at position `k` of the run queue is dispatched by
call number `k + 1` of `schedule()` from then on and by none before it, whatever happens meanwhile; among any two ticks
there is such a call, so `2 (k + 1)` ticks suffice; and a tick never stops. -/
theorem round_robin (boot : ℕ) (s : Sched) (hs : Reach (fun _ => True) boot s) :
    ∃ q bl, OnePlace s q bl ∧ ∀ ops ds s', Goes boot s ops ds s' →
      (∀ k t, q[k]? = some t → (∀ j < k, ds[j]? ≠ some t) ∧ (k < ds.length → ds[k]? = some t) ∧
        (2 * (k + 1) ≤ ops.countP Op.isTick → ds[k]? = some t)) ∧
      (2 ≤ ops.countP Op.isTick → ds ≠ []) ∧ ∃ s'', step s' .tick = .ok s'' := by
  obtain ⟨q, bl, hp, hr⟩ := reach_steady hs
  refine ⟨q, bl, hp.onePlace hr, fun ops ds s' hg => ⟨fun k t hk => ?_, fun h2 => ?_, ?_⟩⟩
  · obtain ⟨h1, h2⟩ := hg.in_turn hp hr hk
    refine ⟨h1, h2, fun hticks => h2 ?_⟩
    have := hg.ticks_le
    split_ifs at this <;> omega
  · rintro rfl
    have := hg.ticks_le
    rw [List.length_nil] at this
    split_ifs at this <;> omega
  · obtain ⟨q', bl', hp', hr'⟩ := reach_steady (hg.reach hs fun _ _ => trivial)
    obtain ⟨s'', h1, _⟩ := schedTick_steady hp' hr'
    exact ⟨s'', h1⟩

end Goes

/-- two user tasks are on the queue behind the bootstrap task; it takes four ticks to come to the second -/
theorem round_robin_second : ∃ s q bl, OnePlace s q bl ∧ q[1]? = some 0x3000 ∧
    ∀ ops ds s', Goes 0x1000 s ops ds s' → 4 ≤ ops.countP Op.isTick → ds[1]? = some 0x3000 := by
  have h0 : Reach (fun _ => True) 0x1000 _ := Reach.init 1 0x4000 (by decide) rfl
  have h1 := Reach.step (.userTaskCreate 0x2000 0x8000 5) h0
    trivial ⟨⟨⟨_, rfl, rfl⟩, Or.inr ⟨rfl, by decide⟩⟩, by decide⟩ rfl
  have h2 := Reach.step (.userTaskCreate 0x3000 0xc000 6) h1
    trivial ⟨⟨⟨_, rfl, rfl⟩, Or.inr ⟨rfl, by decide⟩⟩, by decide⟩ rfl
  obtain ⟨q, bl, hone, hrun⟩ := round_robin 0x1000 _ h2
  have hq : q = [0x2000, 0x3000] := chain_unique hone.queue ⟨rfl, by decide, rfl, by decide, rfl⟩
  subst hq
  exact ⟨_, _, _, hone, rfl, fun ops ds s' hg h4 => ((hrun ops ds s' hg).1 1 0x3000 rfl).2.2 h4⟩

end Uix.Sched
