/-
`wait4` over whole runs of processes that fork, exit and wait; no kernel thread ends, so no task structure is freed.

- `Moves`: what waking and switching do to the task structures.
- `Waits`: the registry links exactly the tasks there are, and no blocked task has a child to reap.
- `no_lost_wakeup`: a process blocked in `wait4(want)` has no ZOMBIE child that matches `want`.
-/
import Uix.Cpu.SchedRun

namespace Uix.Sched

open Machine Links Function

/-! ## Moving tasks about -/

/-- what no operation but exiting and reaping changes of a task -/
structure Life (x x' : Task) : Prop where
  pid : x'.pid = x.pid
  ppid : x'.ppid = x.ppid
  exitStatus : x'.exitStatus = x.exitStatus
  zombie : x'.state = .zombie ↔ x.state = .zombie
  dead : x'.state = .dead ↔ x.state = .dead

/-- what waking and switching leave of a task -/
structure Kept (x x' : Task) : Prop extends Life x x' where
  blockOn : x'.blockOn = x.blockOn
  blocked : x'.state = .blocked → x.state = .blocked
  pc : x'.pc = x.pc ∨ (x.pc = .fresh ∧ x'.pc = .run)

theorem Life.refl (x : Task) : Life x x := ⟨rfl, rfl, rfl, Iff.rfl, Iff.rfl⟩

theorem Kept.refl (x : Task) : Kept x x := ⟨Life.refl x, rfl, id, Or.inl rfl⟩

theorem Kept.wait4 {x x' : Task} (h : Kept x x') (want status : U64) :
    x'.pc = .wait4 want status ↔ x.pc = .wait4 want status := by
  rcases h.pc with h | ⟨h1, h2⟩
  · rw [h]
  · simp [h1, h2]

/-- the same task structures, each related to what it was -/
def Related (R : Task → Task → Prop) (T T' : ℕ → Option Task) : Prop := ∀ t, Option.Rel R (T t) (T' t)

/-- the same tasks, moved about -/
abbrev Moves (T T' : ℕ → Option Task) : Prop := Related Kept T T'

section Related

variable {R : Task → Task → Prop} {T T' : ℕ → Option Task}

theorem rel_after {a a' : Option Task} (h : Option.Rel R a a') {x : Task} (hx : a = some x) :
    ∃ x', a' = some x' ∧ R x x' := by
  subst hx
  cases h with
  | some hr => exact ⟨_, rfl, hr⟩

theorem rel_before {a a' : Option Task} (h : Option.Rel R a a') {x' : Task} (hx : a' = some x') :
    ∃ x, a = some x ∧ R x x' := by
  subst hx
  cases h with
  | some hr => exact ⟨_, rfl, hr⟩

theorem Related.after (h : Related R T T') {t : ℕ} {x : Task} (hx : T t = some x) : ∃ x', T' t = some x' ∧ R x x' :=
  rel_after (h t) hx

theorem Related.before (h : Related R T T') {t : ℕ} {x' : Task} (hx : T' t = some x') : ∃ x, T t = some x ∧ R x x' :=
  rel_before (h t) hx

theorem Related.isSome (h : Related R T T') {t : ℕ} : (T t).isSome ↔ (T' t).isSome := by
  simp only [Option.isSome_iff_exists]
  constructor
  · rintro ⟨x, hx⟩
    obtain ⟨x', hx', _⟩ := h.after hx
    exact ⟨x', hx'⟩
  · rintro ⟨x', hx'⟩
    obtain ⟨x, hx, _⟩ := h.before hx'
    exact ⟨x, hx⟩

theorem related_of (hR : ∀ x, R x x) (h : ∀ t, T' t = T t ∨ ∃ x x', T t = some x ∧ T' t = some x' ∧ R x x') :
    Related R T T' := fun t => by
  rcases h t with h | ⟨x, x', h1, h2, h3⟩
  · rw [h]
    cases T t with
    | none => exact Option.Rel.none
    | some x => exact Option.Rel.some (hR x)
  · rw [h1, h2]
    exact Option.Rel.some h3

theorem rel_mono {S : Task → Task → Prop} (hS : ∀ x x', R x x' → S x x') {a a' : Option Task} (h : Option.Rel R a a') :
    Option.Rel S a a' := by
  cases h with
  | none => exact Option.Rel.none
  | some hr => exact Option.Rel.some (hS _ _ hr)

theorem Moves.life (h : Moves T T') : Related Life T T' := fun t => rel_mono (fun _ _ h => h.toLife) (h t)

end Related

variable {boot : ℕ} {s s' : Sched} {q bl : List ℕ} {t : ℕ} {x : Task}

theorem woken_moves (e p : U64) (h : ∀ u ∈ bl, s.stateOf u = some .blocked) : Moves s.tasks (woken s.tasks e p bl) :=
  related_of Kept.refl fun u => by
    by_cases hu : u ∈ bl ∧ wakes s.tasks e p u
    · obtain ⟨x, hx, hs⟩ := exists_of_stateOf (h u hu.1)
      refine Or.inr ⟨x, { x with state := .ready }, hx, ?_, ⟨rfl, rfl, rfl, ?_, ?_⟩, rfl, ?_, Or.inl rfl⟩
      · rw [woken, if_pos hu, hx]
        rfl
      all_goals simp [hs]
    · exact Or.inl (if_neg hu)

/-- switching moves tasks about, when there is no dead one to free -/
theorem schedule_moves (h : Placed boot s q bl) (hz : s.zombie = 0) (hd : s.stateOf s.current ≠ some .dead) :
    ∃ s' q', s.schedule = .ok s' ∧ Placed boot s' q' bl ∧ s'.stateOf s'.current = some .running ∧
      Moves s.tasks s'.tasks ∧ s'.zombie = 0 ∧ SameReg s s' := by
  obtain ⟨s', w, hs, hp, hr, _⟩ := schedule_placed h
  refine ⟨s', _, hs, hp, hr, ?_⟩
  rcases schedule_spec h with ⟨s1, hs1, _, hst⟩ | ⟨s1, n, q1, x, y, hs1, hq, hx, hy, hsw, _⟩
  · obtain rfl := Except.ok.inj (hs.symm.trans hs1)
    refine ⟨related_of Kept.refl fun t => Or.inl ?_, hst.zombie, hst.reg⟩
    rw [hst.tasks, buried_of_ne _ (Or.inl hz)]
  · obtain rfl := Except.ok.inj (hs.symm.trans hs1)
    have hxd : x.state ≠ .dead := fun e => hd (by rw [stateOf_some hx, e])
    have hyr : y.state = .ready := by
      have := (h.ready n).1 (by simp [hq])
      rw [stateOf_some hy, Option.some.injEq] at this
      exact this
    refine ⟨related_of Kept.refl fun t => ?_, by rw [hsw.zombie, if_neg fun hh => hxd hh.1], hsw.reg⟩
    by_cases htn : t = n
    · subst htn
      refine Or.inr ⟨y, _, hy, hsw.next, ⟨rfl, rfl, rfl, by simp [hyr], by simp [hyr]⟩, rfl, by simp, ?_⟩
      by_cases hf : y.pc = .fresh
      · exact Or.inr ⟨hf, if_pos hf⟩
      · exact Or.inl (if_neg hf)
    by_cases htc : t = s.current
    · subst htc
      have hprev := hsw.prev
      by_cases hxr : x.state = .running
      · rw [if_pos hxr] at hprev
        exact Or.inr ⟨x, _, hx, hprev, ⟨rfl, rfl, rfl, by simp [hxr], by simp [hxr]⟩, rfl, by simp, Or.inl rfl⟩
      · rw [if_neg hxr, if_neg fun hh => hxd hh.1] at hprev
        exact Or.inl (hprev.trans hx.symm)
    · exact Or.inl (hsw.rest t htn htc (Or.inl hz))

/-! ## No lost wakeup -/

/-- the registry links exactly the tasks there are, none is to be freed, and a task in `wait4` that sleeps has no child
to reap -/
structure Waits (s : Sched) (reg : List ℕ) : Prop where
  chain : Chain s.nextAll s.allTasks reg
  all : ∀ t, t ∈ reg ↔ (s.tasks t).isSome
  dead : s.zombie = 0
  asleep : ∀ t x, s.tasks t = some x → x.state = .blocked → x.blockOn = 0 ∧ ∃ want status, x.pc = .wait4 want status ∧
    ∀ u y, s.tasks u = some y → ¬ Reapable x.pid want y
  alive : ∀ t x want status, s.tasks t = some x → x.pc = .wait4 want status → x.state ≠ .zombie ∧ x.state ≠ .dead

variable {reg : List ℕ}

theorem Kept.reapable {y y' : Task} (h : Kept y y') {ppid want : U64} (hr : Reapable ppid want y') :
    Reapable ppid want y := by
  obtain ⟨h1, h2, h3⟩ := hr
  exact ⟨h.zombie.1 h1, h.ppid ▸ h2, h.pid ▸ h3⟩

theorem Waits.moves (h : Waits s reg) (hm : Moves s.tasks s'.tasks) (hz : s'.zombie = 0) (hr : SameReg s s') :
    Waits s' reg where
  chain := by rw [hr.nextAll, hr.allTasks]; exact h.chain
  all t := (h.all t).trans hm.isSome
  dead := hz
  asleep t x' hx' hb := by
    obtain ⟨x, hx, hk⟩ := hm.before hx'
    obtain ⟨h0, want, status, hpc, hno⟩ := h.asleep t x hx (hk.blocked hb)
    refine ⟨hk.blockOn.trans h0, want, status, (hk.wait4 want status).2 hpc, fun u y' hy' hrp => ?_⟩
    obtain ⟨y, hy, hky⟩ := hm.before hy'
    exact hno u y hy (hk.pid ▸ hky.reapable hrp)
  alive t x' want status hx' hpc := by
    obtain ⟨x, hx, hk⟩ := hm.before hx'
    obtain ⟨h1, h2⟩ := h.alive t x want status hx ((hk.wait4 want status).1 hpc)
    exact ⟨fun e => h1 (hk.zombie.1 e), fun e => h2 (hk.dead.1 e)⟩

/-- a state that differs only in what `Waits` does not speak of -/
theorem Waits.congr (h : Waits s reg) (ht : s'.tasks = s.tasks) (hc : Chain s'.nextAll s'.allTasks reg)
    (hz : s'.zombie = s.zombie) : Waits s' reg :=
  ⟨hc, by rw [ht]; exact h.all, hz.trans h.dead, by rw [ht]; exact h.asleep, by rw [ht]; exact h.alive⟩

theorem Creates.waits {ppid : U64} {evs : List Event} (hc : Creates s s' q bl t ppid evs) (h : Waits s reg)
    (hf : Fresh s t) : ∃ reg', Waits s' reg' := by
  rcases hc with rfl | ⟨h0, rfl⟩ | ⟨h0, x, hc, _, _, _⟩
  · exact ⟨reg, h⟩
  · have hf := (hf.resolve_left h0).1
    have hn : t ∉ reg := fun hm => by
      have := (h.all t).1 hm
      simp [hf] at this
    refine ⟨reg, h.congr ?_ ((seg_update hn).2 h.chain) rfl⟩
    funext u
    by_cases hu : u = t
    · simp [kfreeTask, hu, hf]
    · simp [kfreeTask, kzalloc, hu]
  · have hf := (hf.resolve_left h0).1
    have hn : t ∉ reg := fun hm => by
      have := (h.all t).1 hm
      simp [hf] at this
    have hold : ∀ u y, u ≠ t → s'.tasks u = some y → s.tasks u = some y := fun u y hu hy => by
      rwa [hc.tasks, update_of_ne hu] at hy
    have hnew : s'.tasks t = some x := by rw [hc.tasks, update_self]
    refine ⟨t :: reg, ?_, fun u => ?_, hc.zombie.trans h.dead, fun u y hy hb => ?_, fun u y want status hy hpc => ?_⟩
    · rw [hc.nextAll, hc.allTasks]
      refine ⟨rfl, h0, ?_⟩
      rw [update_self]
      exact (seg_update hn).2 h.chain
    · by_cases hu : u = t
      · simp [hu, hnew]
      · rw [hc.tasks, update_of_ne hu, ← h.all u]
        simp [hu]
    · by_cases hu : u = t
      · rw [hu, hnew, Option.some.injEq] at hy
        rw [← hy, hc.state] at hb
        simp at hb
      · obtain ⟨hb0, want, status, hpc, hno⟩ := h.asleep u y (hold u y hu hy) hb
        refine ⟨hb0, want, status, hpc, fun v z hz hrp => ?_⟩
        by_cases hv : v = t
        · rw [hv, hnew, Option.some.injEq] at hz
          have := hrp.1
          rw [← hz, hc.state] at this
          simp at this
        · exact hno v z (hold v z hv hz) hrp
    · by_cases hu : u = t
      · rw [hu, hnew, Option.some.injEq] at hy
        rw [← hy, hc.pc] at hpc
        simp at hpc
      · exact h.alive u y want status (hold u y hu hy) hpc

/-- a task exits: the others are at most woken -/
theorem exited_kept (hp : Placed boot s q bl) (hx : s.tasks s.current = some x) (hxs : x.state = .running)
    (st : BitVec 32)
    (ht : s'.tasks = woken (update s.tasks s.current (some { x with exitStatus := st, state := .zombie }))
      x.pid x.ppid bl) :
    s'.tasks s.current = some { x with exitStatus := st, state := .zombie } ∧
      ∀ u, u ≠ s.current → Option.Rel Kept (s.tasks u) (s'.tasks u) := by
  have hcb := hp.awake (by rw [stateOf_some hx, hxs])
  refine ⟨by rw [ht, woken, if_neg fun hh => hcb hh.1, update_self], fun u hu => ?_⟩
  have := woken_moves x.pid x.ppid (fun v hv => (hp.blocked v).1 hv) u
  rw [ht, woken, wakes_update hu, update_of_ne hu]
  exact this

/-- a task exits: whoever waits for it is awake -/
theorem Waits.exits (h : Waits s reg) (hp : Placed boot s q bl) (hx : s.tasks s.current = some x)
    (hxs : x.state = .running) (hpc : x.pc = .run) (st : BitVec 32)
    (ht : s'.tasks = woken (update s.tasks s.current (some { x with exitStatus := st, state := .zombie }))
      x.pid x.ppid bl)
    (hz : s'.zombie = s.zombie) (hna : s'.nextAll = s.nextAll) (hat : s'.allTasks = s.allTasks) : Waits s' reg := by
  -- what is found at each address afterwards
  obtain ⟨hcur, -⟩ := exited_kept hp hx hxs st ht
  have hother : ∀ u y', u ≠ s.current → s'.tasks u = some y' → ∃ y, s.tasks u = some y ∧
      ((u ∈ bl ∧ Wakes x.pid x.ppid y ∧ y' = { y with state := .ready }) ∨
        (¬ (u ∈ bl ∧ Wakes x.pid x.ppid y) ∧ y' = y)) := by
    intro u y' hu hy'
    rw [ht, woken, update_of_ne hu] at hy'
    split_ifs at hy' with hw
    · obtain ⟨y, hy, rfl⟩ := Option.map_eq_some_iff.1 hy'
      rw [wakes_update hu, wakes_of_some hy, decide_eq_true_iff] at hw
      exact ⟨y, hy, Or.inl ⟨hw.1, hw.2, rfl⟩⟩
    · rw [wakes_update hu, wakes_of_some hy', decide_eq_true_iff] at hw
      exact ⟨y', hy', Or.inr ⟨hw, rfl⟩⟩
  have hsame : ∀ u y', u ≠ s.current → s'.tasks u = some y' → ∀ p w, Reapable p w y' → ∃ y, s.tasks u = some y ∧
      Reapable p w y := by
    intro u y' hu hy' p w hrp
    obtain ⟨y, hy, ⟨_, _, rfl⟩ | ⟨_, rfl⟩⟩ := hother u y' hu hy'
    · exact absurd hrp.1 (by simp)
    · exact ⟨y', hy, hrp⟩
  refine ⟨by rw [hna, hat]; exact h.chain, fun u => ?_, hz.trans h.dead, fun u y' hy' hb => ?_,
    fun u y' want status hy' hw => ?_⟩
  · by_cases hu : u = s.current
    · rw [h.all u, hu, hcur, hx]
      simp
    · rw [h.all u, ht, woken, update_of_ne hu]
      split_ifs <;> simp
  · have hu : u ≠ s.current := fun e => by
      rw [e, hcur, Option.some.injEq] at hy'
      simp [← hy'] at hb
    obtain ⟨y, hy, ⟨_, _, rfl⟩ | ⟨hnw, rfl⟩⟩ := hother u y' hu hy'
    · simp at hb
    obtain ⟨h0, want, status, hpc', hno⟩ := h.asleep u y' hy hb
    have hub : u ∈ bl := (hp.blocked u).2 (by rw [stateOf_some hy, hb])
    refine ⟨h0, want, status, hpc', fun v z hz hrp => ?_⟩
    by_cases hv : v = s.current
    · -- the exiting task is no child of a task that stays asleep
      rw [hv, hcur, Option.some.injEq] at hz
      refine hnw ⟨hub, Or.inl ⟨h0, ?_⟩⟩
      rw [← hrp.2.1, ← hz]
    · obtain ⟨z', hz', hrp'⟩ := hsame v z hv hz _ _ hrp
      exact hno v z' hz' hrp'
  · by_cases hu : u = s.current
    · rw [hu, hcur, Option.some.injEq] at hy'
      rw [← hy'] at hw
      simp [hpc] at hw
    · obtain ⟨y, hy, ⟨_, _, rfl⟩ | ⟨_, rfl⟩⟩ := hother u y' hu hy'
      · simp
      · exact h.alive u y' want status hy hw

/-- a child is reaped -/
theorem Waits.reaps {z : ℕ} {y : Task} (h : Waits s reg) (hx : s.tasks s.current = some x) (hxs : x.state = .running)
    (hy : s.tasks z = some y) (hys : y.state = .zombie)
    (ht : s'.tasks = update (update s.tasks z (some { y with state := .dead })) s.current
      (some { x with pc := .run }))
    (hz : s'.zombie = s.zombie) (hna : s'.nextAll = s.nextAll) (hat : s'.allTasks = s.allTasks) : Waits s' reg := by
  have hcur : s'.tasks s.current = some { x with pc := .run } := by rw [ht, update_self]
  have hne : z ≠ s.current := fun e => by
    rw [e, hx, Option.some.injEq] at hy
    rw [← hy, hxs] at hys
    simp at hys
  have hzt : s'.tasks z = some { y with state := .dead } := by
    rw [ht, update_of_ne hne, update_self]
  have hother : ∀ u, u ≠ s.current → u ≠ z → s'.tasks u = s.tasks u := fun u hu huz => by
    rw [ht, update_of_ne hu, update_of_ne huz]
  refine ⟨by rw [hna, hat]; exact h.chain, fun u => ?_, hz.trans h.dead, fun u v hv hb => ?_,
    fun u v want status hv hw => ?_⟩
  · rw [h.all u]
    by_cases hu : u = s.current
    · simp [hu, hcur, hx]
    by_cases huz : u = z
    · simp [huz, hzt, hy]
    · rw [hother u hu huz]
  · have hu : u ≠ s.current := fun e => by
      rw [e, hcur, Option.some.injEq] at hv
      simp [← hv, hxs] at hb
    have huz : u ≠ z := fun e => by
      rw [e, hzt, Option.some.injEq] at hv
      simp [← hv] at hb
    rw [hother u hu huz] at hv
    obtain ⟨h0, want, status, hpc, hno⟩ := h.asleep u v hv hb
    refine ⟨h0, want, status, hpc, fun w a ha hrp => ?_⟩
    by_cases hwc : w = s.current
    · rw [hwc, hcur, Option.some.injEq] at ha
      have := hrp.1
      simp [← ha, hxs] at this
    by_cases hwz : w = z
    · rw [hwz, hzt, Option.some.injEq] at ha
      have := hrp.1
      simp [← ha] at this
    · exact hno w a (hother w hwc hwz ▸ ha) hrp
  · by_cases hu : u = s.current
    · rw [hu, hcur, Option.some.injEq] at hv
      rw [← hv] at hw
      simp at hw
    by_cases huz : u = z
    · rw [huz, hzt, Option.some.injEq] at hv
      rw [← hv] at hw
      exact absurd hys (h.alive z y want status hy hw).1
    · exact h.alive u v want status (hother u hu huz ▸ hv) hw

/-- a task that found no child to reap goes to sleep -/
theorem Waits.blocks (h : Waits s reg) (hx : s.tasks s.current = some x) (want status : U64)
    (hno : ∀ u y, s.tasks u = some y → ¬ Reapable x.pid want y)
    (ht : s'.tasks = update s.tasks s.current
      (some { x with state := .blocked, blockOn := 0, pc := .wait4 want status }))
    (hz : s'.zombie = s.zombie) (hr : SameReg s s') : Waits s' reg := by
  have hcur : s'.tasks s.current = some { x with state := .blocked, blockOn := 0, pc := .wait4 want status } := by
    rw [ht, update_self]
  have hother : ∀ u, u ≠ s.current → s'.tasks u = s.tasks u := fun u hu => by rw [ht, update_of_ne hu]
  have hsleep : ∀ p w u y, s'.tasks u = some y → Reapable p w y → s.tasks u = some y := fun p w u y hy hrp => by
    by_cases hu : u = s.current
    · rw [hu, hcur, Option.some.injEq] at hy
      have := hrp.1
      simp [← hy] at this
    · rwa [hother u hu] at hy
  refine ⟨by rw [hr.nextAll, hr.allTasks]; exact h.chain, fun u => ?_, hz.trans h.dead, fun u v hv hb => ?_,
    fun u v want' status' hv hw => ?_⟩
  · rw [h.all u]
    by_cases hu : u = s.current
    · simp [hu, hcur, hx]
    · rw [hother u hu]
  · by_cases hu : u = s.current
    · rw [hu, hcur, Option.some.injEq] at hv
      subst hv
      exact ⟨rfl, want, status, rfl, fun w a ha hrp => hno w a (hsleep _ _ w a ha hrp) hrp⟩
    · rw [hother u hu] at hv
      obtain ⟨h0, want', status', hpc, hno'⟩ := h.asleep u v hv hb
      exact ⟨h0, want', status', hpc, fun w a ha hrp => hno' w a (hsleep _ _ w a ha hrp) hrp⟩
  · by_cases hu : u = s.current
    · rw [hu, hcur, Option.some.injEq] at hv
      simp [← hv]
    · exact h.alive u v want' status' (hother u hu ▸ hv) hw

/-! ## What a step of a process does -/

/-- the operations of processes: everything but the end of a kernel thread -/
def Op.process : Op → Prop
  | .taskExit => False
  | _ => True

/-- what the operation `o` does to the task structures, the registry and the log, when `bl` is the blocked list -/
inductive Effect (o : Op) (s s' : Sched) (bl : List ℕ) : Prop where
  | moved (hm : Moves s.tasks s'.tasks) (hr : SameReg s s')
  | created (t : ℕ) (q : List ℕ) (ppid : U64) (evs : List Event) (hf : Fresh s t) (hc : Creates s s' q bl t ppid evs)
      (hev : (ppid = 0 ∧ evs = [.enqueued t s.nextPid]) ∨
        ∃ x, s.tasks s.current = some x ∧ ppid = x.pid ∧ evs = [.forked s.current t, .enqueued t s.nextPid])
  | exited (s1 : Sched) (x : Task) (rdi : U64) (hx : s.tasks s.current = some x) (hxs : x.state = .running)
      (hpc : x.pc = .run)
      (ht : s1.tasks = woken
        (Function.update s.tasks s.current (some { x with exitStatus := rdi.setWidth 32, state := .zombie })) x.pid
        x.ppid bl)
      (hz : s1.zombie = s.zombie) (hna : s1.nextAll = s.nextAll) (hat : s1.allTasks = s.allTasks)
      (hnp : s1.nextPid = s.nextPid) (hlog : s1.log = .exited s.current rdi :: s.log)
      (hm : Moves s1.tasks s'.tasks) (hr : SameReg s1 s')
  | reaped (z : ℕ) (x y : Task) (want status : U64) (hx : s.tasks s.current = some x) (hxs : x.state = .running)
      (hy : s.tasks z = some y) (hrp : Reapable x.pid want y)
      (ht : s'.tasks = Function.update (Function.update s.tasks z (some { y with state := .dead })) s.current
        (some { x with pc := .run }))
      (hz : s'.zombie = s.zombie) (hna : s'.nextAll = s.nextAll) (hat : s'.allTasks = s.allTasks)
      (hnp : s'.nextPid = s.nextPid)
      (hlog : s'.log =
        .waited s.current want y.pid (if status ≠ 0 then some (y.exitStatus.signExtend 64) else none) :: s.log)
  | slept (s1 : Sched) (x : Task) (want status : U64) (hx : s.tasks s.current = some x) (hxs : x.state = .running)
      (hop : o = .wait4 want status ∨ (o = .resume ∧ x.pc = .wait4 want status))
      (hno : ∀ u y, s.tasks u = some y → ¬ Reapable x.pid want y)
      (ht : s1.tasks = Function.update s.tasks s.current
        (some { x with state := .blocked, blockOn := 0, pc := .wait4 want status }))
      (hz : s1.zombie = s.zombie) (hr1 : SameReg s s1) (hm : Moves s1.tasks s'.tasks) (hr : SameReg s1 s')

/-- the state after a step: every task in its place, nothing to free, and the effect of the step -/
structure Stepped (boot : ℕ) (o : Op) (s s' : Sched) (bl : List ℕ) : Prop where
  steady : Steady boot s'
  dead : s'.zombie = 0
  effect : Effect o s s' bl

/-- entering `schedule()` -/
theorem schedule_stepped (o : Op) (s s1 : Sched) (bl : List ℕ) {q1 bl1 : List ℕ} (hp : Placed boot s1 q1 bl1)
    (hz : s1.zombie = 0) (hd : s1.stateOf s1.current ≠ some .dead)
    (heff : ∀ s', Moves s1.tasks s'.tasks → SameReg s1 s' → Effect o s s' bl) :
    ∃ s', s1.schedule = .ok s' ∧ Stepped boot o s s' bl := by
  obtain ⟨s', q', hs, hp', hr', hm, hz', hreg⟩ := schedule_moves hp hz hd
  exact ⟨s', hs, ⟨q', bl1, hp', hr'⟩, hz', heff s' hm hreg⟩

theorem schedTick_stepped (hp : Placed boot s q bl) (hr : s.stateOf s.current = some .running) (hz : s.zombie = 0) :
    ∃ s', s.schedTick = .ok s' ∧ Stepped boot .tick s s' bl := by
  have hswitch : ∃ s', ({ s with needResched := false, ticksSinceSwitch := 0 } : Sched).schedule = .ok s' ∧
      Stepped boot .tick s s' bl :=
    schedule_stepped .tick s { s with needResched := false, ticksSinceSwitch := 0 } bl
      (hp.congr hp.holds (fun _ => rfl) rfl rfl) hz (fun e => by
        have := hr.symm.trans e
        simp at this)
      fun s' hm hreg => .moved hm ⟨hreg.nextAll, hreg.allTasks, hreg.nextPid, hreg.log⟩
  unfold schedTick
  split_ifs
  · exact hswitch
  · exact ⟨_, rfl, ⟨q, bl, hp.congr hp.holds (fun _ => rfl) rfl rfl, hr⟩, hz,
      .moved (related_of Kept.refl fun _ => Or.inl rfl) ⟨rfl, rfl, rfl, rfl⟩⟩
  · exact hswitch

theorem wait4Round_stepped {o : Op} (hp : Placed boot s q bl) (hr : s.stateOf s.current = some .running)
    (hw : Waits s reg) (hb : s.current ≠ boot) (hx : s.tasks s.current = some x) {want status : U64}
    (hop : o = .wait4 want status ∨ (o = .resume ∧ x.pc = .wait4 want status)) :
    ∃ s', s.wait4Round want status = .ok s' ∧ Stepped boot o s s' bl := by
  have hxs : x.state = .running := by
    rw [stateOf_some hx, Option.some.injEq] at hr
    exact hr
  have hlen : reg.length < fuel :=
    length_lt_fuel (chain_nodup hw.chain) fun u hu => hp.addr u ((hw.all u).1 hu)
  have hsearch := findZombieLoop_spec x.pid want hw.chain (fun u hu => (hw.all u).1 hu) hlen
  rcases wait4Round_cases hp hr hx want status with
    ⟨e, hf, _⟩ | ⟨z, y, s', hf, hs, hy, hrp, hp', ht, hc, hz, hna, hat, hnp, hlog⟩ | ⟨hf, hs⟩
  · -- the registry is sound, so the search does not stop
    rcases hsearch with ⟨h1, _⟩ | ⟨z, _, y, _, _, h1⟩
    · exact absurd (hf.symm.trans h1) (by simp)
    · exact absurd (hf.symm.trans h1) (by simp)
  · refine ⟨s', hs, ⟨q, bl, hp', ?_⟩, hz.trans hw.dead, .reaped z x y want status hx hxs hy hrp ht hz hna hat hnp hlog⟩
    rw [hc, stateOf, ht, update_self]
    exact congrArg some hxs
  · have hno : ∀ u y, s.tasks u = some y → ¬ Reapable x.pid want y := by
      rcases hsearch with ⟨_, h2⟩ | ⟨z, hz, y, hy, _, h2⟩
      · exact fun u y hy => h2 u ((hw.all u).2 (by simp [hy])) y hy
      · have : z = 0 := Except.ok.inj (h2.symm.trans hf)
        exact absurd this (hp.addr z (by simp [hy])).1
    obtain ⟨s1, h1, hp1, ht1, hc1, hz1, hr1⟩ := taskBlockAny_spec hp hr hb hx want status
    obtain ⟨s', h2, h3⟩ := schedule_stepped o s s1 bl hp1 (hz1.trans hw.dead)
      (by rw [hc1, stateOf, ht1, update_self]; simp)
      fun s' hm hreg => .slept s1 x want status hx hxs hop hno ht1 hz1 hr1 hm hreg
    exact ⟨s', hs.trans (h1.trans h2), h3⟩

/-- **What a step does.** In a run of processes every legal operation succeeds. -/
theorem step_effect (hp : Placed boot s q bl) (hr : s.stateOf s.current = some .running) (hw : Waits s reg) {o : Op}
    (ho : Possible boot s o) (hpr : o.process) : ∃ s', step s o = .ok s' ∧ Stepped boot o s s' bl := by
  obtain ⟨x, hx, hxs⟩ := exists_of_stateOf hr
  have hnd : s.stateOf s.current ≠ some .dead := by simp [hr]
  have hcreate : ∀ {t ppid evs} {r : Except Stop Sched}, Fresh s t → (∃ s', r = .ok s' ∧ Creates s s' q bl t ppid evs) →
      ((ppid = 0 ∧ evs = [.enqueued t s.nextPid]) ∨
        ∃ x, s.tasks s.current = some x ∧ ppid = x.pid ∧ evs = [.forked s.current t, .enqueued t s.nextPid]) →
      ∃ s', r = .ok s' ∧ Stepped boot o s s' bl := by
    rintro t ppid evs r hf ⟨s', hs, hc⟩ hev
    obtain ⟨reg', hw'⟩ := hc.waits hw hf
    exact ⟨s', hs, hc.steady hp hr hf, hw'.dead, .created t q ppid evs hf hc hev⟩
  cases o with
  | taskCreate t kstack => exact hcreate ho.2 (taskCreate_spec hp ho.2 kstack) (Or.inl ⟨rfl, rfl⟩)
  | userTaskCreate t kstack cr3 => exact hcreate ho.2 (userTaskCreate_spec hp ho.2 kstack cr3) (Or.inl ⟨rfl, rfl⟩)
  | fork t kstack cr3 => exact hcreate ho.2 (doFork_spec hp ho.2 hx kstack cr3) (Or.inr ⟨x, hx, rfl, rfl⟩)
  | start => exact schedule_stepped .start s s bl hp hw.dead hnd fun s' hm hreg => .moved hm hreg
  | tick => exact schedTick_stepped hp hr hw.dead
  | yield =>
    exact ⟨_, rfl, ⟨q, bl, hp.congr hp.holds (fun _ => rfl) rfl rfl, hr⟩, hw.dead,
      .moved (related_of Kept.refl fun _ => Or.inl rfl) ⟨rfl, rfl, rfl, rfl⟩⟩
  | exit rdi =>
    obtain ⟨s1, q1, bl1, hs, hp1, ht, hc, hz, hna, hat, hnp, hlog⟩ := sysExit_spec hp hr ho.2 hx rdi
    obtain ⟨x', hx', hpc⟩ := ho.1
    obtain rfl := Option.some.inj (hx.symm.trans hx')
    have hcb := hp.awake hr
    obtain ⟨s', h1, h2⟩ := schedule_stepped (.exit rdi) s s1 bl hp1 (hz.trans hw.dead)
      (by rw [hc, stateOf, ht, woken, if_neg fun hh => hcb hh.1, update_self]; simp)
      fun s' hm hreg => .exited s1 x rdi hx hxs hpc ht hz hna hat hnp hlog hm hreg
    exact ⟨s', hs.trans h1, h2⟩
  | taskExit => exact absurd hpr id
  | wait4 want status => exact wait4Round_stepped hp hr hw ho.2 hx (Or.inl rfl)
  | resume =>
    simp only [step, get_ok hx, ok_bind]
    have hsame : Stepped boot .resume s s bl :=
      ⟨⟨q, bl, hp, hr⟩, hw.dead, .moved (related_of Kept.refl fun _ => Or.inl rfl) ⟨rfl, rfl, rfl, rfl⟩⟩
    cases hpc : x.pc with
    | fresh => exact ⟨s, rfl, hsame⟩
    | run => exact ⟨s, rfl, hsame⟩
    | wait4 want status => exact wait4Round_stepped hp hr hw ho hx (Or.inr ⟨rfl, hpc⟩)

/-- every step keeps the waiting tasks right -/
theorem Effect.waits {o : Op} (h : Effect o s s' bl) (hp : Placed boot s q bl) (hw : Waits s reg) (hz : s'.zombie = 0) :
    ∃ reg', Waits s' reg' := by
  cases h with
  | moved hm hr => exact ⟨reg, hw.moves hm hz hr⟩
  | created t q ppid evs hf hc hev => exact hc.waits hw hf
  | exited s1 x rdi hx hxs hpc ht hz1 hna hat hnp hlog hm hr =>
    exact ⟨reg, (hw.exits hp hx hxs hpc _ ht hz1 hna hat).moves hm hz hr⟩
  | reaped z x y want status hx hxs hy hrp ht hz1 hna hat hnp hlog =>
    exact ⟨reg, hw.reaps hx hxs hy hrp.1 ht hz1 hna hat⟩
  | slept s1 x want status hx hxs hop hno ht hz1 hr1 hm hr =>
    exact ⟨reg, (hw.blocks hx want status hno ht hz1 hr1).moves hm hz hr⟩

theorem Booted.waits (h : Booted boot s x) : Waits s [boot] := by
  have hother : ∀ u y, s.tasks u = some y → u = boot ∧ y = x := fun u y hy => by
    rw [h.tasks] at hy
    by_cases hu : u = boot
    · rw [hu, update_self, Option.some.injEq] at hy
      exact ⟨hu, hy.symm⟩
    · rw [update_of_ne hu] at hy
      simp at hy
  refine ⟨⟨h.allTasks, h.boot0, h.nextAll⟩, fun t => ?_, h.zombie, fun t y hy hb => ?_, fun t y want status hy hw => ?_⟩
  · rw [h.tasks, List.mem_singleton]
    by_cases ht : t = boot <;> simp [ht]
  · rw [(hother t y hy).2, h.state] at hb
    simp at hb
  · rw [(hother t y hy).2, h.pc] at hw
    simp at hw

theorem reach_waits (h : Reach Op.process boot s) : ∃ reg, Waits s reg := by
  induction h with
  | init _ _ _ hs =>
    obtain ⟨x, hx⟩ := taskInit_spec hs
    exact ⟨[_], hx.waits⟩
  | step o hs hpr ho hstep ih =>
    obtain ⟨reg, hw⟩ := ih
    obtain ⟨q, bl, hp, hr⟩ := reach_steady hs
    obtain ⟨s1, h1, h2⟩ := step_effect hp hr hw ho.possible hpr
    obtain rfl := Except.ok.inj (h1.symm.trans hstep)
    exact h2.effect.waits hp hw h2.dead

/-- task `y` is a child of `x` that `wait4(want)` of `x` may return -/
def Matches (x : Task) (want : U64) (y : Task) : Prop := y.ppid = x.pid ∧ (want = -1 ∨ y.pid = want)

/-- **No lost wakeup.** In every state of a run of processes, a task on the blocked list is there because of some
`wait4(want)`, and none of its children that match `want` is a ZOMBIE; a task in `wait4(want)` with such a child is
READY or RUNNING. -/
theorem no_lost_wakeup (boot : ℕ) (s : Sched) (hs : Reach Op.process boot s) :
    (∃ q bl, OnePlace s q bl ∧ ∀ t ∈ bl, ∃ x want status, s.tasks t = some x ∧ x.pc = .wait4 want status ∧
      ∀ c y, s.tasks c = some y → Matches x want y → y.state ≠ .zombie) ∧
    ∀ t x want status, s.tasks t = some x → x.pc = .wait4 want status →
      (∃ c y, s.tasks c = some y ∧ Matches x want y ∧ y.state = .zombie) → x.state = .ready ∨ x.state = .running := by
  obtain ⟨q, bl, hp, hr⟩ := reach_steady hs
  obtain ⟨reg, hw⟩ := reach_waits hs
  refine ⟨⟨q, bl, hp.onePlace hr, fun t ht => ?_⟩, fun t x want status hx hpc => ?_⟩
  · obtain ⟨x, hx, hb⟩ := exists_of_stateOf ((hp.blocked t).1 ht)
    obtain ⟨_, want, status, hpc, hno⟩ := hw.asleep t x hx hb
    exact ⟨x, want, status, hx, hpc, fun c y hy hm hz => hno c y hy ⟨hz, hm.1, hm.2⟩⟩
  · rintro ⟨c, y, hy, hm, hz⟩
    obtain ⟨hnz, hnd⟩ := hw.alive t x want status hx hpc
    have hnb : x.state ≠ .blocked := fun hb => by
      obtain ⟨_, want', status', hpc', hno⟩ := hw.asleep t x hx hb
      obtain ⟨rfl, rfl⟩ : want = want' ∧ status = status' := by simpa using hpc.symm.trans hpc'
      exact hno c y hy ⟨hz, hm.1, hm.2⟩
    cases hst : x.state with
    | ready => exact Or.inl rfl
    | running => exact Or.inr rfl
    | dead => exact absurd hst hnd
    | zombie => exact absurd hst hnz
    | blocked => exact absurd hst hnb

/-- a run in which a process forks, waits and is woken by the exit of its child -/
theorem reach_woken : ∃ s, Reach Op.process 0x1000 s ∧ s.stateOf 0x2000 = some .ready ∧
    s.stateOf 0x3000 = some .zombie := by
  have h1 : Reach Op.process 0x1000 _ := Reach.init 1 0x4000 (by decide) rfl
  have h2 := Reach.step (.userTaskCreate 0x2000 0x8000 5) h1
    trivial ⟨⟨⟨_, rfl, rfl⟩, Or.inr ⟨rfl, by decide⟩⟩, by decide⟩ rfl
  have h3 := Reach.step .start h2 trivial ⟨rfl, by decide⟩ rfl
  have h4 := Reach.step (.fork 0x3000 0xc000 6) h3 trivial ⟨⟨⟨_, rfl, rfl⟩, Or.inr ⟨rfl, by decide⟩⟩, by decide⟩ rfl
  have h5 := Reach.step (.wait4 (-1) 0x7f0000) h4 trivial ⟨⟨⟨_, rfl, rfl⟩, by decide⟩, by decide⟩ rfl
  have h6 := Reach.step .tick (Reach.step .tick h5 trivial ⟨trivial, by decide⟩ rfl) trivial ⟨trivial, by decide⟩ rfl
  exact ⟨_, Reach.step (.exit 7) h6 trivial ⟨⟨⟨_, rfl, rfl⟩, by decide⟩, by decide⟩ rfl, rfl, rfl⟩

theorem no_lost_wakeup_woken : ∃ s, Reach Op.process 0x1000 s ∧ s.stateOf 0x3000 = some .zombie ∧
    ∃ q bl, OnePlace s q bl ∧ ∀ t ∈ bl, ∃ x want status, s.tasks t = some x ∧ x.pc = .wait4 want status ∧
      ∀ c y, s.tasks c = some y → Matches x want y → y.state ≠ .zombie := by
  obtain ⟨s, hs, _, hz⟩ := reach_woken
  exact ⟨s, hs, hz, (no_lost_wakeup 0x1000 s hs).1⟩

end Uix.Sched
