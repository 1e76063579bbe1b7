/-
Parts of the scheduler that leave the clock and the address spaces alone, and what the others do to them.

- `Calm`: the parts that load no address space.
- `schedule_space`: `schedule()` loads the space of the task it switches to, if that has one of its own.
- `userTaskCreate_users`, `doFork_users`: a new user task has the space it is given.
-/
import Uix.Cpu.SchedRun

namespace Uix.Sched

open Machine Function

variable {boot : ℕ} {s s' s'' : Sched} {q bl : List ℕ} {t n : ℕ} {x y : Task}

/-! ## Parts that load no space -/

/-- each user task has the space it had -/
def KeepsUsers (s s' : Sched) : Prop :=
  ∀ t x', s'.tasks t = some x' → x'.isUser = true → ∃ x, s.tasks t = some x ∧ x.isUser = true ∧ x'.cr3 = x.cr3

theorem KeepsUsers.trans (h : KeepsUsers s s') (h' : KeepsUsers s' s'') : KeepsUsers s s'' := by
  intro t x'' hx'' hu''
  obtain ⟨x', hx', hu', he'⟩ := h' t x'' hx'' hu''
  obtain ⟨x, hx, hu, he⟩ := h t x' hx' hu'
  exact ⟨x, hx, hu, he'.trans he⟩

theorem KeepsUsers.of_eq (h : s'.tasks = s.tasks) : KeepsUsers s s' :=
  fun _ x' hx' hu => ⟨x', h ▸ hx', hu, rfl⟩

/-- one structure is written: it is no user task's, or it keeps its space -/
theorem KeepsUsers.of_update {o : Option Task} (ht : s'.tasks = update s.tasks t o)
    (ho : ∀ x', o = some x' → x'.isUser = true → ∃ x, s.tasks t = some x ∧ x.isUser = true ∧ x'.cr3 = x.cr3) :
    KeepsUsers s s' := by
  intro u x' hx' hu
  by_cases hut : u = t
  · subst hut
    rw [ht, update_self] at hx'
    exact ho x' hx' hu
  · rw [ht, update_of_ne hut] at hx'
    exact ⟨x', hx', hu, rfl⟩

/-- the slice counter and the flag of `task_yield` -/
def clock (s : Sched) : ℕ × Bool := (s.ticksSinceSwitch, s.needResched)

/-- the clock, the current task, the active space and the kernel's own are the same, and so are those of the user
tasks -/
structure Calm (s s' : Sched) : Prop where
  clock : s'.clock = s.clock
  kernelCr3 : s'.kernelCr3 = s.kernelCr3
  space : s'.space = s.space
  current : s'.current = s.current
  users : KeepsUsers s s'

theorem Calm.of_tasks (h : s'.tasks = s.tasks) (ht : s'.clock = s.clock) (hk : s'.kernelCr3 = s.kernelCr3)
    (hs : s'.space = s.space) (hc : s'.current = s.current) : Calm s s' := ⟨ht, hk, hs, hc, .of_eq h⟩

theorem Calm.refl (s : Sched) : Calm s s := .of_tasks rfl rfl rfl rfl rfl

theorem Calm.trans (h : Calm s s') (h' : Calm s' s'') : Calm s s'' :=
  ⟨h'.clock.trans h.clock, h'.kernelCr3.trans h.kernelCr3, h'.space.trans h.space, h'.current.trans h.current,
    h.users.trans h'.users⟩

theorem Calm.setLists (h : Calm s s') (L : TaskLists) : Calm s (s'.setLists L) :=
  h.trans (.of_tasks rfl rfl rfl rfl rfl)

theorem Calm.record (h : Calm s s') (e : Event) : Calm s (s'.record e) := h.trans (.of_tasks rfl rfl rfl rfl rfl)

theorem get_iff : s.get t = .ok x ↔ s.tasks t = some x := by
  unfold get
  cases s.tasks t with
  | none => simp
  | some y => simp

/-- other fields of a task are written -/
theorem put_calm (hx : s.tasks t = some x) (hu : y.isUser = x.isUser) (hc : y.cr3 = x.cr3) : Calm s (s.put t y) := by
  refine ⟨rfl, rfl, rfl, rfl, .of_update rfl fun x' hx' hu' => ⟨x, hx, ?_, ?_⟩⟩
  · rw [Option.some.injEq] at hx'
    rw [← hu, hx', hu']
  · rw [Option.some.injEq] at hx'
    rw [← hc, hx']

theorem setState_calm {st : TaskState} (h : s.setState t st = .ok s') : Calm s s' := by
  obtain ⟨x, hx, h⟩ := bind_ok.1 h
  obtain rfl := pure_ok.1 h
  exact put_calm (get_iff.1 hx) rfl rfl

theorem setNext_calm {v : ℕ} (h : s.setNext t v = .ok s') : Calm s s' := by
  obtain ⟨x, _, h⟩ := bind_ok.1 h
  obtain rfl := pure_ok.1 h
  exact (Calm.refl s).setLists _

theorem schedEnqueue_calm (h : s.schedEnqueue t = .ok s') : Calm s s' := by
  obtain ⟨s1, h1, h⟩ := bind_ok.1 h
  have hs1 := setNext_calm h1
  dsimp only at h
  split_ifs at h
  · obtain ⟨s2, h2, h⟩ := bind_ok.1 h
    obtain rfl := pure_ok.1 h
    exact (hs1.trans (setNext_calm h2)).setLists _
  · obtain rfl := pure_ok.1 h
    exact (hs1.setLists _).setLists _

theorem dequeue_calm (h : s.dequeue = .ok (n, s')) : Calm s s' ∧ n = s.lists.runqueueHead := by
  unfold dequeue at h
  dsimp only at h
  split_ifs at h with h0
  · cases h
    exact ⟨.refl s, h0.symm⟩
  · obtain ⟨_, _, h⟩ := bind_ok.1 h
    obtain ⟨s1, h1, h⟩ := bind_ok.1 h
    cases h
    exact ⟨(((Calm.refl s).setLists _).trans (setNext_calm h1)).setLists _, rfl⟩

theorem reapZombie_calm {prev : ℕ} (h : s.reapZombie prev = .ok s') :
    Calm s s' ∧ s'.lists = s.lists ∧ s'.tasks prev = s.tasks prev := by
  unfold reapZombie at h
  split_ifs at h with hz
  · obtain ⟨x, _, h⟩ := bind_ok.1 h
    obtain rfl := pure_ok.1 h
    exact ⟨⟨rfl, rfl, rfl, rfl, .of_update rfl fun x' hx' => by cases hx'⟩, rfl, update_of_ne (Ne.symm hz.2) _ _⟩
  · obtain rfl := pure_ok.1 h
    exact ⟨.refl s, rfl, rfl⟩

theorem switchOut_calm (h : s.switchOut t x = .ok s') : Calm s s' := by
  unfold switchOut at h
  split_ifs at h
  · obtain ⟨s1, h1, h⟩ := bind_ok.1 h
    exact (setState_calm h1).trans (schedEnqueue_calm h)
  · obtain rfl := pure_ok.1 h
    exact .of_tasks rfl rfl rfl rfl rfl
  · obtain rfl := pure_ok.1 h
    exact .refl s

theorem setLink_calm {pp : Option ℕ} {v : ℕ} (h : s.setLink pp v = .ok s') : Calm s s' := by
  cases pp with
  | none =>
    obtain rfl := pure_ok.1 h
    exact (Calm.refl s).setLists _
  | some b => exact setNext_calm h

theorem wakeupLoop_calm {e p : U64} {k : ℕ} {pp : Option ℕ} (h : wakeupLoop e p k pp s = .ok s') : Calm s s' := by
  induction k generalizing pp s with
  | zero => cases h
  | succ k ih =>
    obtain ⟨t, _, h⟩ := bind_ok.1 h
    split_ifs at h
    · obtain rfl := pure_ok.1 h
      exact .refl s
    obtain ⟨x, _, h⟩ := bind_ok.1 h
    split_ifs at h
    · obtain ⟨n, _, h⟩ := bind_ok.1 h
      obtain ⟨s1, h1, h⟩ := bind_ok.1 h
      obtain ⟨s2, h2, h⟩ := bind_ok.1 h
      obtain ⟨s3, h3, h⟩ := bind_ok.1 h
      obtain ⟨s4, h4, h⟩ := bind_ok.1 h
      exact ((((setLink_calm h1).trans (setNext_calm h2)).trans (setState_calm h3)).trans (schedEnqueue_calm h4)).trans
        (ih h)
    · exact ih h

/-! ## `schedule` -/

/-- the space that is active once the task `y` runs -/
def entering (s : Sched) (y : Task) : U64 := if y.cr3 ≠ 0 ∧ y.cr3 ≠ s.kernelCr3 then y.cr3 else s.space

theorem Calm.entering (h : Calm s s') (y : Task) : s'.entering y = s.entering y := by
  rw [Sched.entering, Sched.entering, h.kernelCr3, h.space]

/-- `switchIn` with the call of `vmm_switch` as an update of the active space -/
theorem switchIn_eq (s : Sched) (n : ℕ) : s.switchIn n = (do
    let s ← s.setState n .running
    let s := { s with current := n }
    let y ← s.get n
    let s := { s with space := s.entering y }
    if y.pc = .fresh then pure (s.put n { y with pc := .run }) else s.reapZombie n) := by
  have hswitch : ∀ (s : Sched) (y : Task), (if y.cr3 ≠ 0 ∧ y.cr3 ≠ s.kernelCr3 then s.vmmSwitch y.cr3 else s) =
      { s with space := s.entering y } := fun s y => by
    unfold Sched.entering vmmSwitch
    split_ifs <;> rfl
  refine congrArg (Bind.bind _) (funext fun s1 => congrArg (Bind.bind _) (funext fun y => ?_))
  exact congrArg (fun s2 : Sched => if y.pc = .fresh then pure (s2.put n { y with pc := .run }) else s2.reapZombie n)
    (hswitch { s1 with current := n } y)

theorem switchIn_space (h : s.switchIn n = .ok s') : s'.current = n ∧ s'.clock = s.clock ∧ s'.kernelCr3 = s.kernelCr3 ∧
    KeepsUsers s s' ∧ ∃ y, s'.tasks n = some y ∧ s'.space = s.entering y := by
  rw [switchIn_eq] at h
  obtain ⟨s1, h1, h⟩ := bind_ok.1 h
  obtain ⟨y, hy, h1⟩ := bind_ok.1 h1
  obtain rfl := pure_ok.1 h1
  obtain ⟨y1, hy1, h⟩ := bind_ok.1 h
  have hn := get_iff.1 hy1
  obtain rfl := Option.some.inj ((update_self n _ _).symm.trans hn)
  have hput := put_calm (s := s) (t := n) (get_iff.1 hy) (y := { y with state := .running }) rfl rfl
  split_ifs at h
  · obtain rfl := pure_ok.1 h
    have hrun := put_calm hn (y := { y with state := .running, pc := .run }) rfl rfl
    exact ⟨rfl, rfl, rfl, hput.users.trans hrun.users, _, update_self .., rfl⟩
  · obtain ⟨hz, _, hself⟩ := reapZombie_calm h
    exact ⟨hz.current, hz.clock, hz.kernelCr3, hput.users.trans hz.users, _, hself.trans hn, hz.space⟩

/-- `schedule()` goes on with the current task, or loads the space of the one it switches to -/
theorem schedule_space (h : s.schedule = .ok s') : Calm s s' ∨ s.lists.runqueueHead ≠ 0 ∧ s'.clock = s.clock ∧
    s'.kernelCr3 = s.kernelCr3 ∧ KeepsUsers s s' ∧ ∃ y, s'.tasks s'.current = some y ∧ s'.space = s.entering y := by
  obtain ⟨s1, h1, h⟩ := bind_ok.1 h
  obtain ⟨⟨n, s2⟩, h2, h⟩ := bind_ok.1 h
  obtain ⟨x, _, h⟩ := bind_ok.1 h
  obtain ⟨hs1, hl1, _⟩ := reapZombie_calm h1
  obtain ⟨hs2, hn⟩ := dequeue_calm h2
  split_ifs at h with h0
  · obtain rfl := pure_ok.1 h
    exact Or.inl (hs1.trans hs2)
  · obtain ⟨s3, h3, h⟩ := bind_ok.1 h
    obtain ⟨hc, ht, hk, hu, y, hy, hsp⟩ := switchIn_space h
    have hs3 := (hs1.trans hs2).trans (switchOut_calm h3)
    rw [hn, hl1] at h0
    exact Or.inr ⟨h0, ht.trans hs3.clock, hk.trans hs3.kernelCr3, hs3.users.trans hu, y, hc.symm ▸ hy,
      hsp.trans (hs3.entering y)⟩

/-! ## New tasks -/

/-- a structure is cleared -/
theorem kzalloc_calm (s : Sched) (t : ℕ) : Calm s (s.kzalloc t) :=
  ⟨rfl, rfl, rfl, rfl, .of_update rfl fun x' hx' hu => by cases hx'; cases hu⟩

theorem kfreeTask_calm (s : Sched) (t : ℕ) : Calm s (s.kfreeTask t) :=
  ⟨rfl, rfl, rfl, rfl, .of_update rfl fun x' hx' => by cases hx'⟩

theorem taskCreate_calm {kstack : ℕ} (h : s.taskCreate t kstack = .ok s') : Calm s s' := by
  by_cases h0 : t = 0
  · simp only [taskCreate, taskAlloc, if_pos h0, if_true] at h
    obtain rfl := pure_ok.1 h
    exact .refl s
  by_cases hk : kstack = 0
  · simp only [taskCreate, taskAlloc, if_neg h0, if_pos hk, if_true] at h
    obtain rfl := pure_ok.1 h
    exact (kzalloc_calm s t).trans (kfreeTask_calm _ t)
  · simp only [taskCreate, taskAlloc, if_neg h0, if_neg hk] at h
    obtain ⟨s1, h1, h⟩ := bind_ok.1 h
    obtain rfl := pure_ok.1 h
    refine Calm.record (Calm.trans ?_ (schedEnqueue_calm h1)) _
    refine (kzalloc_calm s t).trans ⟨rfl, rfl, rfl, rfl, .of_update rfl fun x' hx' hu => ?_⟩
    cases hx'
    cases hu

/-- the user tasks keep their spaces, and `t`, if it is one, has the space `cr3` -/
def AddsUser (t : ℕ) (cr3 : U64) (s s' : Sched) : Prop :=
  ∀ u x', s'.tasks u = some x' → x'.isUser = true →
    (∃ x, s.tasks u = some x ∧ x.isUser = true ∧ x'.cr3 = x.cr3) ∨ (u = t ∧ x'.cr3 = cr3)

theorem schedEnqueueUser_calm (h : s.schedEnqueueUser t = .ok s') : Calm s s' := by
  obtain ⟨x, hx, h⟩ := bind_ok.1 h
  obtain ⟨s1, h1, h⟩ := bind_ok.1 h
  obtain rfl := pure_ok.1 h
  have hput := put_calm (get_iff.1 hx) (y := { x with pid := s.nextPid }) rfl rfl
  have hpid : Calm (s.put t { x with pid := s.nextPid })
      { s.put t { x with pid := s.nextPid } with nextPid := s.nextPid + 1 } := .of_tasks rfl rfl rfl rfl rfl
  exact ((hput.trans hpid).trans (schedEnqueue_calm h1)).record _

/-- a structure is set up with its space, and the task is made known -/
theorem AddsUser.of_put {cr3 : U64} (h : Calm s s') (hx : x.cr3 = cr3) (h' : KeepsUsers (s'.put t x) s'') :
    AddsUser t cr3 s s'' := by
  intro u x'' hx'' hu''
  obtain ⟨x', hx', hu', he⟩ := h' u x'' hx'' hu''
  by_cases hut : u = t
  · subst hut
    rw [put_tasks, update_self, Option.some.injEq] at hx'
    exact Or.inr ⟨rfl, he.trans (hx' ▸ hx)⟩
  · rw [put_tasks, update_of_ne hut] at hx'
    obtain ⟨z, hz, hzu, hze⟩ := h.users u x' hx' hu'
    exact Or.inl ⟨z, hz, hzu, he.trans hze⟩

theorem userTaskCreate_refused {kstack : ℕ} {cr3 : U64} (h0 : t = 0 ∨ kstack = 0)
    (h : s.userTaskCreate t kstack cr3 = .ok s') : Calm s s' := by
  unfold userTaskCreate at h
  dsimp only at h
  split_ifs at h with ht hk
  · obtain rfl := pure_ok.1 h
    exact .refl s
  · obtain rfl := pure_ok.1 h
    exact (kzalloc_calm s t).trans (kfreeTask_calm _ t)
  · exact absurd h0 (not_or.2 ⟨ht, hk⟩)

theorem doFork_refused {kstack : ℕ} {cr3 : U64} (h0 : t = 0 ∨ kstack = 0) (h : s.doFork t kstack cr3 = .ok s') :
    Calm s s' := by
  unfold doFork at h
  dsimp only at h
  split_ifs at h with ht hk
  · obtain rfl := pure_ok.1 h
    exact .refl s
  · obtain rfl := pure_ok.1 h
    exact (kzalloc_calm s t).trans (kfreeTask_calm _ t)
  · exact absurd h0 (not_or.2 ⟨ht, hk⟩)

/-- `user_task_create` leaves the kernel's own space active -/
theorem userTaskCreate_users {kstack : ℕ} {cr3 : U64} (h0 : ¬ (t = 0 ∨ kstack = 0))
    (h : s.userTaskCreate t kstack cr3 = .ok s') :
    AddsUser t cr3 s s' ∧ s'.kernelCr3 = s.kernelCr3 ∧ s'.current = s.current ∧ s'.space = s.kernelCr3 ∧
    s'.clock = s.clock := by
  rw [not_or] at h0
  simp only [userTaskCreate, if_neg h0.1, if_neg h0.2] at h
  have hc := schedEnqueueUser_calm h
  exact ⟨.of_put (kzalloc_calm s t) rfl (KeepsUsers.trans (.of_eq rfl) hc.users), hc.kernelCr3, hc.current, hc.space,
    hc.clock⟩

theorem doFork_users {kstack : ℕ} {cr3 : U64} (h0 : ¬ (t = 0 ∨ kstack = 0)) (h : s.doFork t kstack cr3 = .ok s') :
    AddsUser t cr3 s s' ∧ s'.kernelCr3 = s.kernelCr3 ∧ s'.current = s.current ∧ s'.space = s.space ∧
    s'.clock = s.clock := by
  rw [not_or] at h0
  simp only [doFork, if_neg h0.1, if_neg h0.2] at h
  obtain ⟨parent, _, h⟩ := bind_ok.1 h
  obtain ⟨s1, h1, h⟩ := bind_ok.1 h
  obtain rfl := pure_ok.1 h
  have hc := schedEnqueueUser_calm h1
  exact ⟨.of_put (kzalloc_calm s t) rfl (KeepsUsers.trans (.of_eq rfl) (hc.record _).users), hc.kernelCr3, hc.current,
    hc.space, hc.clock⟩

end Uix.Sched
