/-
Every task is where its state says (`Placed`), and what each kernel entry does to that.

- `schedule_spec`, `schedule_placed`: `schedule()` switches to the head of the queue, and the task switched in is
  RUNNING.
- `taskCreate_spec`, `userTaskCreate_spec`, `doFork_spec`: a new task at the end of the queue, or nothing for want of
  memory.
- `sysExit_spec`, `taskExit_spec`, `taskBlockAny_spec`: the state in which they enter `schedule()`.
- `wait4Round_cases`: one round of the loop of `wait4`.
-/
import Uix.Cpu.SchedSpec

namespace Uix.Sched

open Machine Links List Function

variable {z : ℕ} {y : Task} {ppid : U64}

/-! ## Places -/

def stateOf (s : Sched) (t : ℕ) : Option TaskState := (s.tasks t).map Task.state

theorem stateOf_some {s : Sched} {t : ℕ} {x : Task} (h : s.tasks t = some x) : s.stateOf t = some x.state := by
  rw [stateOf, h]
  rfl

theorem exists_of_stateOf {s : Sched} {t : ℕ} {st : TaskState} (h : s.stateOf t = some st) :
    ∃ x, s.tasks t = some x ∧ x.state = st := by
  obtain ⟨x, hx, rfl⟩ := Option.map_eq_some_iff.1 h
  exact ⟨x, hx, rfl⟩

/-- every task is where its state says; the current task may be on its way out -/
structure Placed (boot : ℕ) (s : Sched) (q bl : List ℕ) : Prop where
  holds : Holds s.lists q bl
  ready : ∀ t, t ∈ q ↔ s.stateOf t = some .ready
  blocked : ∀ t, t ∈ bl ↔ s.stateOf t = some .blocked
  running : ∀ t, s.stateOf t = some .running → t = s.current
  cur : ∃ x, s.tasks s.current = some x ∧ x.state ≠ .ready
  boot : boot ∈ q ∨ (boot = s.current ∧ s.stateOf boot = some .running)
  zombie : s.zombie = 0 ∨ (s.zombie ≠ s.current ∧ s.stateOf s.zombie = some .dead)
  addr : ∀ t, (s.tasks t).isSome → t ≠ 0 ∧ t < 2 ^ 64

section Switch

variable {boot : ℕ} {s : Sched} {q bl : List ℕ}

theorem Placed.isSome (h : Placed boot s q bl) {t : ℕ} (ht : t ∈ q ++ bl) : (s.tasks t).isSome := by
  rcases mem_append.1 ht with ht | ht
  · obtain ⟨x, hx, _⟩ := exists_of_stateOf ((h.ready t).1 ht)
    simp [hx]
  · obtain ⟨x, hx, _⟩ := exists_of_stateOf ((h.blocked t).1 ht)
    simp [hx]

/-- a task that runs is not asleep -/
theorem Placed.awake (h : Placed boot s q bl) (hr : s.stateOf s.current = some .running) :
    s.current ∉ bl := fun hm => by
  have := (h.blocked s.current).1 hm
  simp [hr] at this

/-- the task structures after the dead task left behind is freed -/
def buried (T : ℕ → Option Task) (z : ℕ) : ℕ → Option Task := if z = 0 then T else Function.update T z none

theorem buried_of_ne (T : ℕ → Option Task) {t : ℕ} (h : z = 0 ∨ t ≠ z) : buried T z t = T t := by
  unfold buried
  split_ifs with h0
  · rfl
  · exact update_of_ne (h.resolve_left h0) _ _

theorem buried_self (T : ℕ → Option Task) (h : z ≠ 0) : buried T z z = none := by
  rw [buried, if_neg h, update_self]

theorem buried_congr {T T' : ℕ → Option Task} {t : ℕ} (z : ℕ) (h : T t = T' t) : buried T z t = buried T' z t := by
  by_cases hz : z = 0 ∨ t ≠ z
  · rw [buried_of_ne T hz, buried_of_ne T' hz, h]
  · obtain ⟨h0, rfl⟩ : z ≠ 0 ∧ t = z := by simpa using hz
    rw [buried_self T h0, buried_self T' h0]

/-- the registry, the next pid and the log are the same -/
structure SameReg (s s' : Sched) : Prop where
  nextAll : s'.nextAll = s.nextAll
  allTasks : s'.allTasks = s.allTasks
  nextPid : s'.nextPid = s.nextPid
  log : s'.log = s.log

theorem SameReg.trans {s s' s'' : Sched} (h : SameReg s s') (h' : SameReg s' s'') : SameReg s s'' :=
  ⟨h'.nextAll.trans h.nextAll, h'.allTasks.trans h.allTasks, h'.nextPid.trans h.nextPid, h'.log.trans h.log⟩

theorem reapZombie_spec (prev : ℕ) (hz : s.zombie = 0 ∨ (s.zombie ≠ prev ∧ (s.tasks s.zombie).isSome)) :
    ∃ s', s.reapZombie prev = .ok s' ∧ s'.tasks = buried s.tasks s.zombie ∧ s'.zombie = 0 ∧ s'.current = s.current ∧
      s'.lists = s.lists ∧ SameReg s s' := by
  by_cases h0 : s.zombie = 0
  · refine ⟨s, ?_, ?_, h0, rfl, rfl, rfl, rfl, rfl, rfl⟩
    · rw [reapZombie, if_neg fun h => h.1 h0]
      rfl
    · rw [buried, if_pos h0]
  · obtain ⟨hne, hsome⟩ := hz.resolve_left h0
    obtain ⟨x, hx⟩ := Option.isSome_iff_exists.1 hsome
    refine ⟨{ (s.kfreeStack x.kstack).kfreeTask s.zombie with zombie := 0 }, ?_, ?_, rfl, rfl, rfl, rfl, rfl, rfl, rfl⟩
    · rw [reapZombie, if_pos ⟨h0, hne⟩, get_ok hx, ok_bind]
      rfl
    · rw [buried, if_neg h0]
      rfl

/-- the task left goes where its state says -/
theorem switchOut_spec {c : ℕ} {x : Task} (hl : Holds s.lists q bl) (hq : ∀ u ∈ q, (s.tasks u).isSome)
    (hx : s.tasks c = some x) (hc : c ≠ 0) (hcq : x.state = .running → c ∉ q ++ bl) (hz : s.zombie = 0) :
    ∃ s', s.switchOut c x = .ok s' ∧
      s'.tasks = (if x.state = .running then update s.tasks c (some { x with state := .ready }) else s.tasks) ∧
      s'.zombie = (if x.state = .dead then c else 0) ∧ s'.current = s.current ∧
      Holds s'.lists (q ++ if x.state = .running then [c] else []) bl ∧ SameReg s s' := by
  unfold switchOut
  by_cases hr : x.state = .running
  · have hd : x.state ≠ .dead := by simp [hr]
    have hcn := hcq hr
    obtain ⟨L, h1, h2⟩ := schedEnqueue_spec (s := s.put c { x with state := .ready }) (t := c) hl
      (fun u hu => by
        have hne : u ≠ c := fun e => hcn (by simp [← e, hu])
        rw [put_tasks, update_of_ne hne]
        exact hq u hu)
      (by simp) hc hcn
    rw [if_pos hr, if_pos hr, if_pos hr, if_neg hd, setState_ok hx, ok_bind]
    exact ⟨_, h1, rfl, hz, rfl, h2, rfl, rfl, rfl, rfl⟩
  · rw [if_neg hr, if_neg hr, if_neg hr, append_nil]
    by_cases hd : x.state = .dead
    · rw [if_pos hd, if_pos hd]
      exact ⟨_, rfl, rfl, rfl, rfl, hl, rfl, rfl, rfl, rfl⟩
    · rw [if_neg hd, if_neg hd]
      exact ⟨_, rfl, rfl, hz, rfl, hl, rfl, rfl, rfl, rfl⟩

/-- the task entered runs, and frees the one left behind if it goes on inside `schedule` -/
theorem switchIn_spec {n : ℕ} (hy : s.tasks n = some y)
    (hz : s.zombie = 0 ∨ (s.zombie ≠ n ∧ (s.tasks s.zombie).isSome)) :
    ∃ s', s.switchIn n = .ok s' ∧
      s'.tasks n = some { y with state := .running, pc := if y.pc = .fresh then .run else y.pc } ∧
      (∀ t, t ≠ n → s'.tasks t = if y.pc = .fresh then s.tasks t else buried s.tasks s.zombie t) ∧
      s'.current = n ∧ s'.zombie = (if y.pc = .fresh then s.zombie else 0) ∧ s'.lists = s.lists ∧ SameReg s s' := by
  -- the state up to `switch_to`; the address space does not matter here
  obtain ⟨s1, hs1, ht1, hz1, hc1, hl1, hr1⟩ : ∃ s1 : Sched, s.switchIn n = (if y.pc = .fresh then
        pure (s1.put n { y with state := .running, pc := .run }) else s1.reapZombie n) ∧
      s1.tasks = update s.tasks n (some { y with state := .running }) ∧ s1.zombie = s.zombie ∧ s1.current = n ∧
      s1.lists = s.lists ∧ SameReg s s1 := by
    rw [switchIn, setState_ok hy, ok_bind]
    have hget : ({ s.put n { y with state := .running } with current := n } : Sched).get n =
      .ok { y with state := .running } := get_ok (by simp)
    simp only [hget, ok_bind]
    split_ifs <;> exact ⟨_, rfl, rfl, rfl, rfl, rfl, rfl, rfl, rfl, rfl⟩
  rw [hs1]
  by_cases hf : y.pc = .fresh
  · simp only [if_pos hf]
    refine ⟨_, rfl, update_self .., fun t ht => ?_, hc1, hz1, hl1, hr1.nextAll, hr1.allTasks, hr1.nextPid,
      hr1.log⟩
    simp [ht, ht1]
  · simp only [if_neg hf]
    rw [← hz1] at hz
    obtain ⟨s2, h2, ht2, hz2, hc2, hl2, hr2⟩ := reapZombie_spec (s := s1) n
      (hz.imp_right fun h => ⟨h.1, by simpa [ht1, h.1] using h.2⟩)
    refine ⟨s2, h2, ?_, fun t ht => ?_, hc2.trans hc1, hz2, hl2.trans hl1, hr1.trans hr2⟩
    · rw [ht2, ht1, buried_of_ne _ (hz.imp_right fun h => h.1.symm), update_self]
    · rw [ht2, ht1, hz1]
      exact buried_congr _ (update_of_ne ht _ _)

/-- what a switch from `s.current` (task `x`) to `n` (task `y`) does -/
structure Switched (s s' : Sched) (n : ℕ) (x y : Task) : Prop where
  next : s'.tasks n = some { y with state := .running, pc := if y.pc = .fresh then .run else y.pc }
  prev : s'.tasks s.current = if x.state = .running then some { x with state := .ready }
    else if x.state = .dead ∧ y.pc ≠ .fresh then none else some x
  dead : s.zombie ≠ 0 → s'.tasks s.zombie = none
  rest : ∀ t, t ≠ n → t ≠ s.current → s.zombie = 0 ∨ t ≠ s.zombie → s'.tasks t = s.tasks t
  current : s'.current = n
  zombie : s'.zombie = if x.state = .dead ∧ y.pc = .fresh then s.current else 0
  reg : SameReg s s'

/-- `schedule()` when there is no other task to run -/
structure Stayed (s s' : Sched) : Prop where
  running : s.stateOf s.current = some .running
  tasks : s'.tasks = buried s.tasks s.zombie
  current : s'.current = s.current
  zombie : s'.zombie = 0
  lists : s'.lists = s.lists
  reg : SameReg s s'

theorem Placed.zombie_ne (h : Placed boot s q bl) {t : ℕ} {st : TaskState} (ht : s.stateOf t = some st)
    (hst : st ≠ .dead) : s.zombie = 0 ∨ t ≠ s.zombie :=
  h.zombie.imp_right fun hz e => hst (by rw [e, hz.2] at ht; exact (Option.some.inj ht).symm)

theorem Placed.zombie_isSome (h : Placed boot s q bl) :
    s.zombie = 0 ∨ (s.zombie ≠ s.current ∧ (s.tasks s.zombie).isSome) := h.zombie.imp_right fun hz => by
  obtain ⟨z, hz1, _⟩ := exists_of_stateOf hz.2
  exact ⟨hz.1, by simp [hz1]⟩

/-- **`schedule()`.** It goes on with the current task if that is RUNNING and alone, and otherwise switches to the first
task of the queue. -/
theorem schedule_spec (h : Placed boot s q bl) :
    (∃ s', s.schedule = .ok s' ∧ q = [] ∧ Stayed s s') ∨
    ∃ s' n q' x y, s.schedule = .ok s' ∧ q = n :: q' ∧ s.tasks s.current = some x ∧ s.tasks n = some y ∧
      Switched s s' n x y ∧ Holds s'.lists (q' ++ if x.state = .running then [s.current] else []) bl := by
  obtain ⟨x, hx, hxr⟩ := h.cur
  obtain ⟨s1, h1, ht1, hz1, hc1, hl1, hr1⟩ := reapZombie_spec s.current h.zombie_isSome
  have hx1 : s1.tasks s.current = some x := by
    rw [ht1, buried_of_ne _ (h.zombie_isSome.imp_right fun hz => hz.1.symm), hx]
  have hq1 : ∀ u ∈ q, s1.tasks u = s.tasks u := fun u hu => by
    rw [ht1, buried_of_ne _ (h.zombie_ne ((h.ready u).1 hu) (by simp))]
  rw [schedule, h1, ok_bind]
  cases q with
  | nil =>
    left
    have hrun : s.stateOf s.current = some .running := by
      rcases h.boot with hb | ⟨rfl, hb⟩
      · simp at hb
      · exact hb
    have hxs : x.state = .running := by
      rw [stateOf_some hx, Option.some.injEq] at hrun
      exact hrun
    refine ⟨s1, ?_, rfl, hrun, ht1, hc1, hz1, hl1, hr1⟩
    rw [dequeue_nil (hl1 ▸ h.holds), ok_bind]
    simp only [get_ok hx1, ok_bind, if_true, hxs]
    rfl
  | cons n q =>
    right
    obtain ⟨y, hy, hyr⟩ := exists_of_stateOf ((h.ready n).1 (by simp))
    have hn0 : n ≠ 0 := (h.addr n (by simp [hy])).1
    have hc0 : s.current ≠ 0 := (h.addr s.current (by simp [hx])).1
    have hnc : n ≠ s.current := fun e => by
      rw [e, hx, Option.some.injEq] at hy
      exact hxr (hy ▸ hyr)
    have hcq : s.current ∉ q := fun hc => by
      have := (h.ready s.current).1 (by simp [hc])
      rw [stateOf_some hx, Option.some.injEq] at this
      exact hxr this
    obtain ⟨L, h2, hl2⟩ := dequeue_cons (s := s1) (hl1 ▸ h.holds) ((hq1 n (by simp)).trans hy)
    obtain ⟨s3, h3, ht3, hz3, _, hl3, hr3⟩ := switchOut_spec (s := s1.setLists L) (c := s.current) (x := x) hl2
      (fun u hu => by
        rw [setLists_tasks, hq1 u (by simp [hu])]
        exact h.isSome (by simp [hu]))
      hx1 hc0 (fun hr hc => by
        rcases mem_append.1 hc with hc | hc
        · exact hcq hc
        · have := (h.blocked s.current).1 hc
          rw [stateOf_some hx, hr] at this
          simp at this) hz1
    have hy3 : s3.tasks n = some y := by
      rw [ht3]
      split_ifs
      · rw [update_of_ne hnc, setLists_tasks, hq1 n (by simp), hy]
      · rw [setLists_tasks, hq1 n (by simp), hy]
    obtain ⟨s4, h4, hn4, ht4, hc4, hz4, hl4, hr4⟩ := switchIn_spec hy3 (by
      rw [hz3]
      split_ifs with hd
      · right
        rw [ht3, if_neg (by simp [hd]), setLists_tasks, hx1]
        exact ⟨hnc.symm, rfl⟩
      · exact Or.inl rfl)
    have hrest : ∀ t, t ≠ n → t ≠ s.current → s4.tasks t = s1.tasks t := fun t htn htc => by
      have ht3' : s3.tasks t = s1.tasks t := by
        rw [ht3]
        split_ifs
        · exact update_of_ne htc _ _
        · rfl
      have hzt : s3.zombie = 0 ∨ t ≠ s3.zombie := by
        rw [hz3]
        split_ifs
        exacts [Or.inr htc, Or.inl rfl]
      rw [ht4 t htn, buried_of_ne _ hzt, ite_self, ht3']
    refine ⟨s4, n, q, x, y, ?_, rfl, hx, hy, ⟨hn4, ?_, fun h0 => ?_, fun t htn htc htz => ?_, hc4, ?_, ?_⟩, ?_⟩
    · rw [h2, ok_bind]
      simp only [get_ok (s := s1.setLists L) hx1, ok_bind, if_neg hn0, h3, h4]
    · rw [ht4 s.current hnc.symm, ht3, hz3]
      by_cases hr : x.state = .running
      · simp [hr, buried_of_ne]
      · by_cases hd : x.state = .dead
        · by_cases hf : y.pc = .fresh
          · simp [hd, hf, hx1]
          · simp [hd, hf, buried_self _ hc0]
        · simp [hr, hd, buried_of_ne, hx1]
    · have hz := h.zombie.resolve_left h0
      have hzn : s.zombie ≠ n := fun e => by
        rw [e, stateOf_some hy, hyr] at hz
        simp at hz
      rw [hrest s.zombie hzn hz.1, ht1, buried_self _ h0]
    · rw [hrest t htn htc, ht1, buried_of_ne _ htz]
    · rw [hz4, hz3]
      by_cases hf : y.pc = .fresh <;> simp [hf]
    · exact (hr1.trans ⟨hr3.nextAll, hr3.allTasks, hr3.nextPid, hr3.log⟩).trans hr4
    · rwa [hl4]

/-- the states after a switch -/
theorem Switched.stateOf_cases {s' : Sched} {n : ℕ} {x : Task} (h : Switched s s' n x y) (t : ℕ) :
    (t = n ∧ s'.stateOf t = some .running) ∨ (t ≠ n ∧ t = s.current ∧ x.state = .running ∧ s'.stateOf t = some .ready) ∨
    (t ≠ n ∧ t = s.current ∧ x.state = .dead ∧ s'.stateOf t = none) ∨
    (t ≠ n ∧ t = s.current ∧ x.state ≠ .running ∧ s'.stateOf t = some x.state) ∨
    (t ≠ n ∧ t ≠ s.current ∧ s.zombie ≠ 0 ∧ t = s.zombie ∧ s'.stateOf t = none) ∨
    (t ≠ n ∧ t ≠ s.current ∧ (s.zombie = 0 ∨ t ≠ s.zombie) ∧ s'.stateOf t = s.stateOf t) := by
  by_cases hn : t = n
  · exact Or.inl ⟨hn, by rw [hn, stateOf_some h.next]⟩
  by_cases hc : t = s.current
  · have hp := h.prev
    split_ifs at hp with hr hd
    · exact Or.inr (Or.inl ⟨hn, hc, hr, by rw [hc, stateOf_some hp]⟩)
    · exact Or.inr (Or.inr (Or.inl ⟨hn, hc, hd.1, by rw [hc, stateOf, hp]; rfl⟩))
    · exact Or.inr (Or.inr (Or.inr (Or.inl ⟨hn, hc, hr, by rw [hc, stateOf_some hp]⟩)))
  by_cases hz : s.zombie = 0 ∨ t ≠ s.zombie
  · exact Or.inr (Or.inr (Or.inr (Or.inr (Or.inr ⟨hn, hc, hz, by rw [stateOf, stateOf, h.rest t hn hc hz]⟩))))
  · obtain ⟨h0, rfl⟩ : s.zombie ≠ 0 ∧ t = s.zombie := by simpa using hz
    exact Or.inr (Or.inr (Or.inr (Or.inr (Or.inl ⟨hn, hc, h0, rfl, by rw [stateOf, h.dead h0]; rfl⟩))))

theorem stateOf_buried {s' : Sched} (ht : s'.tasks = buried s.tasks s.zombie) (t : ℕ) :
    (s.zombie ≠ 0 ∧ t = s.zombie ∧ s'.stateOf t = none) ∨
    ((s.zombie = 0 ∨ t ≠ s.zombie) ∧ s'.stateOf t = s.stateOf t) := by
  by_cases hz : s.zombie = 0 ∨ t ≠ s.zombie
  · exact Or.inr ⟨hz, by rw [stateOf, stateOf, ht, buried_of_ne _ hz]⟩
  · obtain ⟨h0, rfl⟩ : s.zombie ≠ 0 ∧ t = s.zombie := by simpa using hz
    exact Or.inl ⟨h0, rfl, by rw [stateOf, ht, buried_self _ h0]; rfl⟩

theorem isSome_of_stateOf {t : ℕ} : (s.tasks t).isSome ↔ (s.stateOf t).isSome := by
  rw [stateOf, Option.isSome_map]

/-- **After `schedule()` every task is in its place, and the current one is RUNNING.** -/
theorem schedule_placed (h : Placed boot s q bl) :
    ∃ s' w, s.schedule = .ok s' ∧ Placed boot s' (q.tail ++ w) bl ∧ s'.stateOf s'.current = some .running ∧
      ∀ n ∈ q.head?, s'.current = n := by
  rcases schedule_spec h with ⟨s', hs', rfl, hst⟩ | ⟨s', n, q', x, y, hs', rfl, hx, hy, hsw, hl⟩
  · have key := stateOf_buried hst.tasks
    have hcur : s'.stateOf s.current = some .running := by
      rcases key s.current with ⟨h0, hz, _⟩ | ⟨_, h1⟩
      · exact absurd hz.symm (h.zombie.resolve_left h0).1
      · exact h1.trans hst.running
    have hdead : s.zombie ≠ 0 → s.stateOf s.zombie = some .dead := fun h0 => (h.zombie.resolve_left h0).2
    refine ⟨s', [], hs',
      ⟨hst.lists ▸ h.holds, fun t => ?_, fun t => ?_, fun t => ?_, ?_, ?_, Or.inl hst.zombie, fun t => ?_⟩,
      hst.current ▸ hcur, by simp⟩
    · have h1 := h.ready t
      rcases key t with ⟨h0, rfl, h2⟩ | ⟨_, h2⟩
      · simp [h2]
      · exact h2 ▸ h1
    · have h1 := h.blocked t
      rcases key t with ⟨h0, rfl, h2⟩ | ⟨_, h2⟩
      · rw [h1, h2, hdead h0]
        simp
      · rw [h2, h1]
    · rw [hst.current]
      rcases key t with ⟨h0, rfl, h2⟩ | ⟨_, h2⟩
      · simp [h2]
      · rw [h2]
        exact h.running t
    · rw [hst.current]
      obtain ⟨x, hx, hxs⟩ := exists_of_stateOf hcur
      exact ⟨x, hx, by simp [hxs]⟩
    · rcases h.boot with hb | ⟨rfl, _⟩
      · simp at hb
      · exact Or.inr ⟨hst.current.symm, hcur⟩
    · rw [isSome_of_stateOf]
      rcases key t with ⟨h0, rfl, h2⟩ | ⟨_, h2⟩
      · simp [h2]
      · rw [h2, ← isSome_of_stateOf]
        exact h.addr t
  · have hxc := stateOf_some hx
    have hyn : s.stateOf n = some .ready := (h.ready n).1 (by simp)
    have hxr : x.state ≠ .ready := by
      obtain ⟨x', hx', hr⟩ := h.cur
      rw [hx, Option.some.injEq] at hx'
      exact hx' ▸ hr
    have hnc : n ≠ s.current := fun e => hxr (by rw [e, hxc, Option.some.injEq] at hyn; exact hyn)
    have hnq : n ∉ q' := by
      have := h.holds.apart
      grind
    have hz : s.zombie ≠ 0 → s.stateOf s.zombie = some .dead := fun h0 => (h.zombie.resolve_left h0).2
    have key := hsw.stateOf_cases
    refine ⟨s', _, hs', ⟨hl, fun t => ?_, fun t => ?_, fun t => ?_, ?_, ?_, ?_, fun t => ?_⟩, ?_, by simp [hsw.current]⟩
    · have h1 := h.ready t
      have h2 := key t
      split_ifs <;> grind
    · have h1 := h.blocked t
      have h2 := key t
      grind
    · have h1 := h.running t
      have h2 := key t
      have h3 := hsw.current
      grind
    · rw [hsw.current]
      exact ⟨_, hsw.next, by simp⟩
    · have h1 := h.boot
      have h2 := key boot
      have h3 := hsw.current
      by_cases hb : boot = n
      · right
        grind
      · left
        split_ifs <;> grind
    · rw [hsw.zombie, hsw.current]
      split_ifs with hd
      · right
        have hp := hsw.prev
        rw [if_neg (by simp [hd.1]), if_neg (by simp [hd.2])] at hp
        exact ⟨hnc.symm, by rw [stateOf_some hp, hd.1]⟩
      · exact Or.inl rfl
    · rw [isSome_of_stateOf]
      have h1 := h.addr t
      rw [isSome_of_stateOf] at h1
      have h2 := key t
      grind
    · rw [hsw.current, stateOf_some hsw.next]

end Switch

/-! ## The other operations -/

/-- what `kzalloc` may return: NULL, or the address of memory that is not in use -/
def Fresh (s : Sched) (t : ℕ) : Prop := t = 0 ∨ (s.tasks t = none ∧ t < 2 ^ 64)

section Ops

variable {boot : ℕ} {s s' : Sched} {q bl : List ℕ} {t : ℕ} {x : Task}

theorem stateOf_update (ht : s'.tasks = update s.tasks t (some x)) (u : ℕ) :
    s'.stateOf u = if u = t then some x.state else s.stateOf u := by
  rw [stateOf, ht]
  by_cases hu : u = t
  · simp [hu]
  · simp [hu, stateOf]

/-- `Placed` is about the lists, the states, the current task and the dead one -/
theorem Placed.congr (h : Placed boot s q bl) (hl : Holds s'.lists q bl) (hs : ∀ t, s'.stateOf t = s.stateOf t)
    (hc : s'.current = s.current) (hz : s'.zombie = s.zombie) : Placed boot s' q bl where
  holds := hl
  ready t := by rw [hs]; exact h.ready t
  blocked t := by rw [hs]; exact h.blocked t
  running t := by rw [hs, hc]; exact h.running t
  cur := by
    obtain ⟨x, hx, hr⟩ := h.cur
    obtain ⟨x', hx', he⟩ := exists_of_stateOf ((hs s.current).trans (stateOf_some hx))
    exact ⟨x', hc ▸ hx', he ▸ hr⟩
  boot := by rw [hs, hc]; exact h.boot
  zombie := by rw [hz, hc, hs]; exact h.zombie
  addr t := by rw [isSome_of_stateOf, hs, ← isSome_of_stateOf]; exact h.addr t

section Ends

variable (h : Placed boot s q bl) (hr : s.stateOf s.current = some .running) (hb : s.current ≠ boot)
  (ht : s'.tasks = Function.update s.tasks s.current (some x))
include h hr hb ht

/-- the current task ends -/
theorem Placed.ends (hx : x.state = .dead ∨ x.state = .zombie)
    (hl : s'.lists = s.lists) (hc : s'.current = s.current) (hz : s'.zombie = s.zombie) : Placed boot s' q bl := by
  have key := stateOf_update ht
  refine ⟨hl ▸ h.holds, fun t => ?_, fun t => ?_, fun t => ?_, ⟨x, by rw [hc, ht, update_self], ?_⟩, ?_, ?_,
    fun t => ?_⟩
  · have := h.ready t
    grind
  · have := h.blocked t
    grind
  · have := h.running t
    grind
  · grind
  · have := h.boot
    grind
  · have := h.zombie
    grind
  · rw [isSome_of_stateOf]
    have := h.addr t
    rw [isSome_of_stateOf] at this
    grind

/-- the current task goes to the front of the blocked list -/
theorem Placed.blocks (hx : x.state = .blocked) (hl : s'.lists = { s.lists with
      next := update s.lists.next s.current s.lists.blockedList, blockedList := s.current })
    (hc : s'.current = s.current) (hz : s'.zombie = s.zombie) : Placed boot s' q (s.current :: bl) := by
  have key := stateOf_update ht
  have hcq : s.current ∉ q := fun hm => by
    have := (h.ready s.current).1 hm
    simp [hr] at this
  have hcb := h.awake hr
  have hc0 : s.current ≠ 0 := by
    obtain ⟨y, hy, _⟩ := exists_of_stateOf hr
    exact (h.addr s.current (by simp [hy])).1
  have hholds : Holds s'.lists q (s.current :: bl) := by
    rw [hl]
    refine ⟨(seg_update hcq).2 h.holds.queue, h.holds.tail, h.holds.size, ⟨rfl, hc0, ?_⟩, ?_⟩
    · simp only [update_self]
      exact (seg_update hcb).2 h.holds.blocked
    · have := h.holds.apart
      grind
  refine ⟨hholds, fun t => ?_, fun t => ?_, fun t => ?_, ⟨x, by rw [hc, ht, update_self], ?_⟩, ?_, ?_,
    fun t => ?_⟩
  · have := h.ready t
    grind
  · have := h.blocked t
    grind
  · have := h.running t
    grind
  · grind
  · have := h.boot
    grind
  · have := h.zombie
    grind
  · rw [isSome_of_stateOf]
    have := h.addr t
    rw [isSome_of_stateOf] at this
    grind

end Ends

/-- a new task is at the end of the run queue -/
theorem Placed.creates (h : Placed boot s q bl) (hf : s.tasks t = none) (h0 : t ≠ 0) (h64 : t < 2 ^ 64)
    (ht : s'.tasks = update s.tasks t (some x)) (hx : x.state = .ready) (hl : Holds s'.lists (q ++ [t]) bl)
    (hc : s'.current = s.current) (hz : s'.zombie = s.zombie) : Placed boot s' (q ++ [t]) bl := by
  have key := stateOf_update ht
  have hfresh : s.stateOf t = none := by rw [stateOf, hf]; rfl
  have hct : s.current ≠ t := fun e => by
    obtain ⟨y, hy, _⟩ := h.cur
    rw [e, hf] at hy
    simp at hy
  refine ⟨hl, fun u => ?_, fun u => ?_, fun u => ?_, ?_, ?_, ?_, fun u => ?_⟩
  · have := h.ready u
    grind
  · have := h.blocked u
    grind
  · have := h.running u
    grind
  · obtain ⟨y, hy, hr⟩ := h.cur
    exact ⟨y, by rw [hc, ht, update_of_ne hct, hy], hr⟩
  · have := h.boot
    grind
  · have := h.zombie
    grind
  · rw [isSome_of_stateOf]
    have := h.addr u
    rw [isSome_of_stateOf] at this
    grind

theorem stateOf_woken {e p : U64} (ht : s'.tasks = woken s.tasks e p bl) (hbl : ∀ u ∈ bl, (s.tasks u).isSome) (u : ℕ) :
    s'.stateOf u = if u ∈ bl ∧ wakes s.tasks e p u then some .ready else s.stateOf u := by
  rw [stateOf, ht, woken]
  split_ifs with hu
  · obtain ⟨y, hy⟩ := Option.isSome_iff_exists.1 (hbl u hu.1)
    rw [hy]
    rfl
  · rfl

/-- the tasks woken are at the end of the run queue -/
theorem Placed.wakes {e p : U64} (h : Placed boot s q bl) (ht : s'.tasks = woken s.tasks e p bl)
    (hl : Holds s'.lists (q ++ bl.filter (wakes s.tasks e p)) (bl.filter fun u => !Sched.wakes s.tasks e p u))
    (hc : s'.current = s.current) (hz : s'.zombie = s.zombie) (hcb : s.current ∉ bl) :
    Placed boot s' (q ++ bl.filter (Sched.wakes s.tasks e p)) (bl.filter fun u => !Sched.wakes s.tasks e p u) := by
  have key := stateOf_woken ht fun u hu => h.isSome (mem_append_right _ hu)
  refine ⟨hl, fun u => ?_, fun u => ?_, fun u => ?_, ?_, ?_, ?_, fun u => ?_⟩
  · have h1 := h.ready u
    have h2 := h.blocked u
    grind
  · have h1 := h.ready u
    have h2 := h.blocked u
    grind
  · have h1 := h.running u
    have h2 := h.blocked u
    grind
  · obtain ⟨y, hy, hr⟩ := h.cur
    exact ⟨y, by rw [hc, ht, woken, if_neg fun hh => hcb hh.1, hy], hr⟩
  · have h1 := h.boot
    have h2 := h.blocked boot
    grind
  · have h1 := h.zombie
    have h2 := h.blocked s.zombie
    grind
  · rw [isSome_of_stateOf]
    have h1 := h.addr u
    rw [isSome_of_stateOf] at h1
    have h2 := h.blocked u
    grind

/-- the blocked list is shorter than the fuel of its loop -/
theorem length_lt_fuel {l : List ℕ} (hnd : l.Nodup) (hl : ∀ u ∈ l, u ≠ 0 ∧ u < 2 ^ 64) : l.length < fuel := by
  have hsub : l.toFinset ⊆ Finset.Ico 1 (2 ^ 64) := fun u hu => by
    have := hl u (mem_toFinset.1 hu)
    exact Finset.mem_Ico.2 (by omega)
  have := Finset.card_le_card hsub
  rw [toFinset_card_of_nodup hnd, Nat.card_Ico] at this
  unfold fuel
  omega

/-- **Waking keeps every task in its place.** -/
theorem taskWakeupChildren_spec (h : Placed boot s q bl) (hcb : s.current ∉ bl) (e p : U64) :
    ∃ s' w bl', s.taskWakeupChildren e p = .ok s' ∧ Placed boot s' (q ++ w) bl' ∧ s'.tasks = woken s.tasks e p bl ∧
      s'.current = s.current ∧ s'.zombie = s.zombie ∧ SameReg s s' := by
  have hnd : bl.Nodup := (nodup_append.1 h.holds.apart).2.1
  obtain ⟨L, h1, h2⟩ := wakeupLoop_spec e p fuel [] bl h.holds
    (fun u hu => h.isSome (by simpa using hu))
    (length_lt_fuel hnd fun u hu => h.addr u (h.isSome (mem_append_right _ hu)))
  exact ⟨_, _, _, h1, h.wakes rfl h2 rfl rfl hcb, rfl, rfl, rfl, rfl, rfl, rfl, rfl⟩

/-- a new structure on the run queue and in the registry -/
structure Created (s s' : Sched) (t : ℕ) (x : Task) : Prop where
  tasks : s'.tasks = Function.update s.tasks t (some x)
  state : x.state = .ready
  pc : x.pc = .fresh
  pid : x.pid = s.nextPid
  current : s'.current = s.current
  zombie : s'.zombie = s.zombie
  nextAll : s'.nextAll = Function.update s.nextAll t s.allTasks
  allTasks : s'.allTasks = t
  nextPid : s'.nextPid = s.nextPid + 1

/-- memory that is not in use is on no list -/
theorem Placed.holds_fresh (h : Placed boot s q bl) (hf : s.tasks t = none) :
    t ∉ q ++ bl ∧ Holds { s.lists with next := update s.lists.next t 0 } q bl := by
  have hn : t ∉ q ++ bl := fun hm => by
    have := h.isSome hm
    rw [hf] at this
    simp at this
  have hq : t ∉ q := fun hm => hn (mem_append_left _ hm)
  have hb : t ∉ bl := fun hm => hn (mem_append_right _ hm)
  exact ⟨hn, (seg_update hq).2 h.holds.queue, h.holds.tail, h.holds.size, (seg_update hb).2 h.holds.blocked,
    h.holds.apart⟩

theorem Placed.refuses (h : Placed boot s q bl) (hf : s.tasks t = none) :
    Placed boot ((s.kzalloc t).kfreeTask t) q bl := by
  refine h.congr (h.holds_fresh hf).2 (fun u => ?_) rfl rfl
  by_cases hu : u = t
  · simp [stateOf, kfreeTask, hu, hf]
  · simp [stateOf, kfreeTask, kzalloc, hu]

section Enqueue

variable (h : Placed boot s q bl) (s' : Sched) (hf : s.tasks t = none) (h0 : t ≠ 0)
  (ht : s'.tasks = Function.update s.tasks t (some x))
  (hl : s'.lists = { s.lists with next := Function.update s.lists.next t 0 })
include h hf h0 ht hl

/-- enqueueing a structure just set up at `t` -/
theorem Placed.enqueue_fresh : ∃ L, s'.schedEnqueue t = .ok (s'.setLists L) ∧ Holds L (q ++ [t]) bl := by
  obtain ⟨hn, hh⟩ := h.holds_fresh hf
  refine schedEnqueue_spec (hl ▸ hh) (fun u hu => ?_) (by simp [ht]) h0 hn
  have hne : u ≠ t := fun e => hn (by simp [← e, hu])
  rw [ht, update_of_ne hne]
  exact h.isSome (by simp [hu])

theorem schedEnqueueUser_spec : ∃ L, s'.schedEnqueueUser t = .ok ((({ s' with
        tasks := update s.tasks t (some { x with pid := s'.nextPid }),
        nextPid := s'.nextPid + 1 } : Sched).setLists L).record (.enqueued t s'.nextPid)) ∧
      Holds L (q ++ [t]) bl := by
  have hx : s'.tasks t = some x := by rw [ht, update_self]
  have ht' : ({ s'.put t { x with pid := s'.nextPid } with nextPid := s'.nextPid + 1 } : Sched).tasks =
      update s.tasks t (some { x with pid := s'.nextPid }) := by
    rw [put, ht]
    exact update_idem ..
  obtain ⟨L, h1, h2⟩ := h.enqueue_fresh { s'.put t { x with pid := s'.nextPid } with nextPid := s'.nextPid + 1 }
    hf h0 ht' hl
  refine ⟨L, ?_, h2⟩
  rw [schedEnqueueUser, get_ok hx, ok_bind]
  simp only [h1, ok_bind, pure_eq_ok, ← ht']
  rfl

end Enqueue

/-- what creating a task does: nothing for want of memory, or a new task; `evs` is what it records -/
def Creates (s s' : Sched) (q bl : List ℕ) (t : ℕ) (ppid : U64) (evs : List Event) : Prop :=
  s' = s ∨ (t ≠ 0 ∧ s' = (s.kzalloc t).kfreeTask t) ∨
  (t ≠ 0 ∧ ∃ x, Created s s' t x ∧ x.ppid = ppid ∧ s'.log = evs ++ s.log ∧ Holds s'.lists (q ++ [t]) bl)

theorem taskCreate_spec (h : Placed boot s q bl) (hf : Fresh s t) (kstack : ℕ) :
    ∃ s', s.taskCreate t kstack = .ok s' ∧ Creates s s' q bl t 0 [.enqueued t s.nextPid] := by
  by_cases h0 : t = 0
  · exact ⟨s, by simp only [taskCreate, taskAlloc, if_pos h0]; rfl, Or.inl rfl⟩
  have hf := (hf.resolve_left h0).1
  by_cases hk : kstack = 0
  · exact ⟨_, by simp only [taskCreate, taskAlloc, if_neg h0, if_pos hk]; rfl, Or.inr (Or.inl ⟨h0, rfl⟩)⟩
  obtain ⟨L, h1, h2⟩ := h.enqueue_fresh (x := { Task.zero with kstack := kstack, pid := s.nextPid, state := .ready })
    ({ (s.kzalloc t).put t { Task.zero with kstack := kstack, pid := s.nextPid, state := .ready } with
      nextPid := s.nextPid + 1 }.taskRegister t) hf h0 (update_idem ..) rfl
  simp only [taskCreate, taskAlloc, if_neg h0, if_neg hk]
  exact ⟨_, (congrArg (· >>= _) h1).trans rfl, Or.inr (Or.inr ⟨h0, _, ⟨update_idem .., rfl, rfl, rfl, rfl, rfl,
    update_idem .., rfl, rfl⟩, rfl, rfl, h2⟩)⟩

theorem userTaskCreate_spec (h : Placed boot s q bl) (hf : Fresh s t) (kstack : ℕ) (cr3 : U64) :
    ∃ s', s.userTaskCreate t kstack cr3 = .ok s' ∧ Creates s s' q bl t 0 [.enqueued t s.nextPid] := by
  by_cases h0 : t = 0
  · exact ⟨s, by simp only [userTaskCreate, if_pos h0]; rfl, Or.inl rfl⟩
  have hf := (hf.resolve_left h0).1
  by_cases hk : kstack = 0
  · exact ⟨_, by simp only [userTaskCreate, if_neg h0, if_pos hk]; rfl, Or.inr (Or.inl ⟨h0, rfl⟩)⟩
  simp only [userTaskCreate, if_neg h0, if_neg hk]
  obtain ⟨L, h1, h2⟩ := schedEnqueueUser_spec h ((((s.kzalloc t).put t { Task.zero with
    kstack := kstack, state := .ready, isUser := true, cr3 := cr3,
    fds :=
      fun i => if i.val = 0 then ⟨.consoleIn, true⟩ else if i.val < 3 then ⟨.consoleOut, true⟩ else ⟨.none, false⟩ }
    ).taskRegister t).vmmSwitch s.kernelCr3) hf h0 (update_idem ..) rfl
  exact ⟨_, h1, Or.inr (Or.inr ⟨h0, _, ⟨rfl, rfl, rfl, rfl, rfl, rfl, update_idem .., rfl, rfl⟩, rfl, rfl, h2⟩)⟩

theorem doFork_spec (h : Placed boot s q bl) (hf : Fresh s t) (hx : s.tasks s.current = some x) (kstack : ℕ)
    (cr3 : U64) : ∃ s', s.doFork t kstack cr3 = .ok s' ∧
      Creates s s' q bl t x.pid [.forked s.current t, .enqueued t s.nextPid] := by
  by_cases h0 : t = 0
  · exact ⟨s, by simp only [doFork, if_pos h0]; rfl, Or.inl rfl⟩
  have hf := (hf.resolve_left h0).1
  by_cases hk : kstack = 0
  · exact ⟨_, by simp only [doFork, if_neg h0, if_pos hk]; rfl, Or.inr (Or.inl ⟨h0, rfl⟩)⟩
  have hct : s.current ≠ t := fun e => by
    rw [e, hf] at hx
    simp at hx
  have hget : (s.kzalloc t).get (s.kzalloc t).current = .ok x :=
    get_ok ((update_of_ne hct _ _).trans hx)
  simp only [doFork, if_neg h0, if_neg hk, hget, ok_bind]
  obtain ⟨L, h1, h2⟩ := schedEnqueueUser_spec h (((s.kzalloc t).put t { Task.zero with
    kstack := kstack, isUser := true, state := .ready, ppid := x.pid, cr3 := cr3, fds := x.fds }).taskRegister t)
    hf h0 (update_idem ..) rfl
  exact ⟨_, (congrArg (· >>= _) h1).trans rfl, Or.inr (Or.inr ⟨h0, _, ⟨rfl, rfl, rfl, rfl, rfl, rfl,
    update_idem .., rfl, rfl⟩, rfl, rfl, h2⟩)⟩

theorem Creates.placed {evs : List Event} (hc : Creates s s' q bl t ppid evs) (h : Placed boot s q bl)
    (hf : Fresh s t) : ∃ w, Placed boot s' (q ++ w) bl ∧ s'.stateOf s'.current = s.stateOf s.current := by
  have hcur : ∀ x, s.tasks s.current = some x → s.current ≠ t ∨ t = 0 := fun x hx => by
    rcases hf with h0 | hf
    · exact Or.inr h0
    · exact Or.inl fun e => by rw [e, hf.1] at hx; simp at hx
  obtain ⟨x, hx, _⟩ := h.cur
  rcases hc with rfl | ⟨h0, rfl⟩ | ⟨h0, y, hc, _, _, hl⟩
  · exact ⟨[], by rwa [append_nil], rfl⟩
  · refine ⟨[], by rw [append_nil]; exact h.refuses (hf.resolve_left h0).1, ?_⟩
    simp [stateOf, kfreeTask, kzalloc, (hcur x hx).resolve_right h0, setLists]
  · refine ⟨[t], h.creates (hf.resolve_left h0).1 h0 (hf.resolve_left h0).2 hc.tasks hc.state hl hc.current hc.zombie,
      ?_⟩
    rw [hc.current, stateOf_update hc.tasks, if_neg ((hcur x hx).resolve_right h0)]

section Leaving

variable (h : Placed boot s q bl) (hr : s.stateOf s.current = some .running) (hb : s.current ≠ boot)
  (hx : s.tasks s.current = some x)
include h hr hb hx

/-- `SYS_exit` up to its `schedule()`: the task is a zombie, and its waiting parent is on the run queue -/
theorem sysExit_spec (rdi : U64) : ∃ s' w bl', s.sysExit rdi = s'.schedule ∧ Placed boot s' (q ++ w) bl' ∧
      s'.tasks = woken (update s.tasks s.current (some { x with exitStatus := rdi.setWidth 32, state := .zombie }))
        x.pid x.ppid bl ∧
      s'.current = s.current ∧ s'.zombie = s.zombie ∧ s'.nextAll = s.nextAll ∧ s'.allTasks = s.allTasks ∧
      s'.nextPid = s.nextPid ∧ s'.log = .exited s.current rdi :: s.log := by
  have h1 : Placed boot (s.put s.current { x with exitStatus := rdi.setWidth 32, state := .zombie }) q bl :=
    h.ends hr hb rfl (Or.inr rfl) rfl rfl rfl
  obtain ⟨s2, q2, bl2, h2, h3, ht, hc, hz, hreg⟩ := taskWakeupChildren_spec h1 (h.awake hr) x.pid x.ppid
  refine ⟨s2.record (.exited s.current rdi), q2, bl2, ?_, h3.congr h3.holds (fun _ => rfl) rfl rfl, ht, hc, hz,
    hreg.nextAll, hreg.allTasks, hreg.nextPid, congrArg _ hreg.log⟩
  simp only [sysExit, get_ok hx, ok_bind, h2]

theorem taskExit_spec : ∃ s', s.taskExit = s'.schedule ∧ Placed boot s' q bl ∧
      s'.tasks = update s.tasks s.current (some { x with state := .dead }) ∧ s'.current = s.current ∧
      SameReg s s' := by
  refine ⟨s.put s.current { x with state := .dead }, ?_, h.ends hr hb rfl (Or.inl rfl) rfl rfl rfl, rfl, rfl, rfl, rfl,
    rfl, rfl⟩
  rw [taskExit, setState_ok hx, ok_bind]

/-- `task_block_any` up to its `schedule()` -/
theorem taskBlockAny_spec (want status : U64) :
    ∃ s', s.taskBlockAny want status = s'.schedule ∧ Placed boot s' q (s.current :: bl) ∧
      s'.tasks = update s.tasks s.current
        (some { x with state := .blocked, blockOn := 0, pc := .wait4 want status }) ∧
      s'.current = s.current ∧ s'.zombie = s.zombie ∧ SameReg s s' := by
  refine ⟨(s.put s.current { x with state := .blocked, blockOn := 0, pc := .wait4 want status }).setLists { s.lists with
      next := update s.lists.next s.current s.lists.blockedList, blockedList := s.current }, ?_,
    h.blocks hr hb rfl rfl rfl rfl rfl, rfl, rfl, rfl, rfl, rfl, rfl, rfl⟩
  have hx' : (s.put s.current { x with state := .blocked, blockOn := 0, pc := .wait4 want status }).tasks s.current =
      some { x with state := .blocked, blockOn := 0, pc := .wait4 want status } := update_self ..
  rw [taskBlockAny, get_ok hx, ok_bind]
  simp only [setNext_ok hx', ok_bind]
  rfl

end Leaving

/-- what the search returns is a zombie it looks for -/
theorem findZombieLoop_ok {want : U64} {k a : ℕ} (hf : s.findZombieLoop ppid want k a = .ok z) (hz : z ≠ 0) :
    ∃ y, s.tasks z = some y ∧ Reapable ppid want y := by
  induction k generalizing a with
  | zero => simp [findZombieLoop] at hf
  | succ k ih =>
    rw [findZombieLoop] at hf
    split_ifs at hf with ha
    · exact absurd (pure_ok.1 hf).symm hz
    · obtain ⟨y, hy, hf⟩ := bind_ok.1 hf
      split_ifs at hf with hr
      · obtain rfl := pure_ok.1 hf
        refine ⟨y, ?_, hr⟩
        rw [get] at hy
        split at hy
        · rename_i hy'
          rw [hy', Except.ok.inj hy]
        · simp at hy
      · exact ih hf

/-- the search ends without finding one, or finds one, or stops on a stale registry -/
theorem findZombieLoop_stop {want : U64} {k a : ℕ} {e : Stop} (hf : s.findZombieLoop ppid want k a = .error e) :
    e ≠ .halt := by
  induction k generalizing a with
  | zero =>
    rw [findZombieLoop] at hf
    exact fun he => by simp [he] at hf
  | succ k ih =>
    rw [findZombieLoop] at hf
    split_ifs at hf with ha
    · simp [pure_eq_ok] at hf
    · cases hx : s.tasks a with
      | none =>
        rw [get, hx] at hf
        exact fun he => by simp [he, bind, Except.bind] at hf
      | some y =>
        rw [get_ok hx, ok_bind] at hf
        split_ifs at hf with hr
        · simp [pure_eq_ok] at hf
        · exact ih hf

/-- the task reaped is no longer a zombie, and its parent goes back to its own code -/
theorem Placed.reaps (h : Placed boot s q bl) (hr : s.stateOf s.current = some .running)
    (hx : s.tasks s.current = some x) (hy : s.tasks z = some y) (hz : y.state = .zombie)
    (ht : s'.tasks = update (update s.tasks z (some { y with state := .dead })) s.current
      (some { x with pc := .run }))
    (hl : s'.lists = s.lists) (hc : s'.current = s.current) (hzo : s'.zombie = s.zombie) : Placed boot s' q bl := by
  have hzs : s.stateOf z = some .zombie := by rw [stateOf_some hy, hz]
  have hxs := stateOf_some hx
  have key : ∀ u, s'.stateOf u = if u = z then some .dead else s.stateOf u := fun u => by
    by_cases hu : u = s.current
    · have hne : u ≠ z := fun e => by
        rw [← e, hu, hr] at hzs
        simp at hzs
      rw [if_neg hne, stateOf, ht, hu, update_self, hxs]
      rfl
    · by_cases huz : u = z
      · rw [if_pos huz, stateOf, ht, update_of_ne hu, huz, update_self]
        rfl
      · rw [if_neg huz, stateOf, ht, update_of_ne hu, update_of_ne huz]
        rfl
  refine ⟨hl ▸ h.holds, fun t => ?_, fun t => ?_, fun t => ?_, ⟨{ x with pc := .run }, ?_, ?_⟩, ?_, ?_, fun t => ?_⟩
  · have := h.ready t
    grind
  · have := h.blocked t
    grind
  · have := h.running t
    grind
  · rw [hc, ht, update_self]
  · rw [hxs, Option.some.injEq] at hr
    simp [hr]
  · have := h.boot
    grind
  · have := h.zombie
    grind
  · rw [isSome_of_stateOf]
    have := h.addr t
    rw [isSome_of_stateOf] at this
    grind

/-- one round of the loop of `wait4`: a stop in the search, a child reaped, or the task blocks -/
theorem wait4Round_cases (h : Placed boot s q bl) (hr : s.stateOf s.current = some .running)
    (hx : s.tasks s.current = some x) (want status : U64) :
    (∃ e, s.taskFindZombie x.pid want = .error e ∧ s.wait4Round want status = .error e) ∨
    (∃ z y s', s.taskFindZombie x.pid want = .ok z ∧ s.wait4Round want status = .ok s' ∧ s.tasks z = some y ∧
      Reapable x.pid want y ∧ Placed boot s' q bl ∧
      s'.tasks = update (update s.tasks z (some { y with state := .dead })) s.current
        (some { x with pc := .run }) ∧
      s'.current = s.current ∧ s'.zombie = s.zombie ∧ s'.nextAll = s.nextAll ∧ s'.allTasks = s.allTasks ∧
      s'.nextPid = s.nextPid ∧
      s'.log = .waited s.current want y.pid (if status ≠ 0 then some (y.exitStatus.signExtend 64) else none) :: s.log) ∨
    (s.taskFindZombie x.pid want = .ok 0 ∧ s.wait4Round want status = s.taskBlockAny want status) := by
  cases hf : s.taskFindZombie x.pid want with
  | error e =>
    refine Or.inl ⟨e, rfl, ?_⟩
    simp only [wait4Round, get_ok hx, ok_bind, hf]
    rfl
  | ok z =>
    by_cases hz : z = 0
    · refine Or.inr (Or.inr ⟨congrArg _ hz, ?_⟩)
      simp only [wait4Round, get_ok hx, ok_bind, hf, hz, ne_eq, not_true_eq_false, if_false]
    · obtain ⟨y, hy, hrp⟩ := findZombieLoop_ok hf hz
      have hne : s.current ≠ z := fun e => by
        rw [e, stateOf_some hy, hrp.1] at hr
        simp at hr
      have hx' : (s.put z { y with state := .dead }).tasks s.current = some x :=
        (update_of_ne hne _ _).trans hx
      refine Or.inr (Or.inl ⟨z, y, ((s.put z { y with state := .dead }).put s.current { x with pc := .run }).record
        (.waited s.current want y.pid (if status ≠ 0 then some (y.exitStatus.signExtend 64) else none)), rfl,
        ?_, hy, hrp, h.reaps hr hx hy hrp.1 rfl rfl rfl rfl, rfl, rfl, rfl, rfl, rfl, rfl, rfl⟩)
      simp only [wait4Round, get_ok hx, ok_bind, hf, get_ok hy, get_ok hx', ne_eq, hz, not_false_eq_true, if_true]
      rfl

end Ops

end Uix.Sched
