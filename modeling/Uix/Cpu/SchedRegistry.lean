/-
The task registry, `all_tasks` and the `next_all` fields, and the memory it leads to.

Nothing takes a task out of the registry (`task_reap_children` has no caller), and `schedule()` frees the structure of a
kernel thread that ended in `task_exit`.

- `registered_iff`: the walk through the registry visits the tasks on its chain.
- `taskExit_dangles`: after a `task_exit` the registry leads to freed memory, at once or after the next `schedule()`.
- `registry_live_iff`: as long as no thread ended so, the registry leads to live structures only; a step keeps it so
  just if it is no `task_exit`.
-/
import Uix.Cpu.SchedWait

namespace Uix.Sched

open Machine Links List

/-! ## The walk through the registry -/

/-- what a walk from `all_tasks` through the `next_all` fields comes to -/
inductive Registered (s : Sched) : ℕ → Prop where
  | head : s.allTasks ≠ 0 → Registered s s.allTasks
  | next {t : ℕ} : Registered s t → s.nextAll t ≠ 0 → Registered s (s.nextAll t)

/-- no structure the walk comes to has been freed -/
def RegistryLive (s : Sched) : Prop := ∀ t, Registered s t → (s.tasks t).isSome

variable {boot : ℕ} {s s' : Sched} {q bl reg : List ℕ}

theorem registered_of_chain {a : ℕ} (hc : Chain s.nextAll a reg) (ha : a ≠ 0 → Registered s a) :
    ∀ t ∈ reg, Registered s t := by
  induction reg generalizing a with
  | nil => simp
  | cons b reg ih =>
    obtain ⟨rfl, hb, hc⟩ := chain_cons.1 hc
    exact forall_mem_cons.2 ⟨ha hb, ih hc fun h0 => (ha hb).next h0⟩

theorem registered_iff (hc : Chain s.nextAll s.allTasks reg) (t : ℕ) : Registered s t ↔ t ∈ reg := by
  have hfirst : ∀ {a : ℕ} {l : List ℕ}, Chain s.nextAll a l → a ≠ 0 → a ∈ l := fun {a l} h h0 => by
    cases l with
    | nil => exact absurd (chain_nil.1 h) h0
    | cons b l => simp [(chain_cons.1 h).1]
  refine ⟨fun h => ?_, registered_of_chain hc Registered.head t⟩
  induction h with
  | head h0 => exact hfirst hc h0
  | @next t _ h0 ih =>
    obtain ⟨l₁, l₂, rfl⟩ := append_of_mem ih
    have hnext := hfirst (chain_cons.1 (chain_drop hc)).2.2 h0
    simp [hnext]

theorem registered_congr (hr : SameReg s s') {t : ℕ} (h : Registered s t) : Registered s' t := by
  induction h with
  | head h0 => exact hr.allTasks ▸ Registered.head (hr.allTasks.symm ▸ h0)
  | next _ h0 ih => exact hr.nextAll ▸ ih.next (hr.nextAll.symm ▸ h0)

theorem Waits.registryLive (h : Waits s reg) : RegistryLive s :=
  fun t ht => (h.all t).1 ((registered_iff h.chain t).1 ht)

/-- the search only looks at live structures -/
theorem Waits.taskFindZombie_ok (h : Waits s reg) (hp : Placed boot s q bl) (ppid want : U64) :
    ∃ z, s.taskFindZombie ppid want = .ok z := by
  have hlen : reg.length < fuel := length_lt_fuel (chain_nodup h.chain) fun u hu => hp.addr u ((h.all u).1 hu)
  rcases findZombieLoop_spec ppid want h.chain (fun u hu => (h.all u).1 hu) hlen with ⟨h1, _⟩ | ⟨z, _, _, _, _, h1⟩
  · exact ⟨0, h1⟩
  · exact ⟨z, h1⟩

/-! ## The end of a kernel thread -/

/-- a dead task that waits to be freed is freed by the next `schedule()`, and stays in the registry -/
theorem schedule_frees (hp : Placed boot s q bl) (h0 : s.zombie ≠ 0) (hz : Registered s s.zombie) :
    ∃ s', s.schedule = .ok s' ∧ ¬ RegistryLive s' := by
  have hno : ∀ s', SameReg s s' → s'.tasks s.zombie = none → ¬ RegistryLive s' := fun s' hr hn hl => by
    have := hl _ (registered_congr hr hz)
    simp [hn] at this
  rcases schedule_spec hp with ⟨s', hs, _, hst⟩ | ⟨s', n, q', x, y, hs, _, _, _, hsw, _⟩
  · exact ⟨s', hs, hno s' hst.reg (by rw [hst.tasks, buried_self _ h0])⟩
  · exact ⟨s', hs, hno s' hsw.reg (hsw.dead h0)⟩

/-- **A thread that ends leaves a dangling entry.** Its structure is freed on the switch, if the next task has run
before, and otherwise by the next `schedule()`. -/
theorem taskExit_dangles (hp : Placed boot s q bl) (hr : s.stateOf s.current = some .running) (hb : s.current ≠ boot)
    (hc : Registered s s.current) {s' : Sched} (hs : s.taskExit = .ok s') :
    ¬ RegistryLive s' ∨ ∃ s'', s'.schedule = .ok s'' ∧ ¬ RegistryLive s'' := by
  obtain ⟨x, hx, _⟩ := exists_of_stateOf hr
  obtain ⟨s1, h1, hp1, ht1, hc1, hr1⟩ := taskExit_spec hp hr hb hx
  have hx1 : s1.tasks s1.current = some { x with state := .dead } := by rw [hc1, ht1, Function.update_self]
  rw [h1] at hs
  rcases schedule_spec hp1 with ⟨s2, h2, _, hst⟩ | ⟨s2, n, q', x', y, h2, _, hx', hy, hsw, _⟩
  · have := hst.running
    rw [stateOf_some hx1] at this
    simp at this
  obtain rfl := Except.ok.inj (h2.symm.trans hs)
  obtain rfl := Option.some.inj (hx1.symm.trans hx')
  have hreg : Registered s2 s1.current := registered_congr hsw.reg (registered_congr hr1 (hc1 ▸ hc))
  by_cases hf : y.pc = .fresh
  · have hz : s2.zombie = s1.current := by rw [hsw.zombie, if_pos ⟨rfl, hf⟩]
    obtain ⟨s3, w, h3, hp3, _, _⟩ := schedule_placed hp1
    obtain rfl := Except.ok.inj (h3.symm.trans h2)
    refine Or.inr (schedule_frees hp3 ?_ (hz ▸ hreg))
    rw [hz]
    exact (hp1.addr _ (by simp [hx1])).1
  · refine Or.inl fun hl => ?_
    have hgone := hsw.prev
    rw [if_neg (by simp), if_pos ⟨rfl, hf⟩] at hgone
    have := hl _ hreg
    simp [hgone] at this

/-- **The registry refers to live structures as long as no kernel thread ends.** In every state of a run of processes
the walk through the registry comes to live structures only, and the search for a zombie ends without a stray access. A
step keeps it so, up to and including the next `schedule()`, just if it is no `task_exit`. -/
theorem registry_live_iff (boot : ℕ) (s : Sched) (hs : Reach Op.process boot s) :
    RegistryLive s ∧ (∀ ppid want, ∃ z, s.taskFindZombie ppid want = .ok z) ∧
    ∀ o s', Legal boot s o → step s o = .ok s' →
      ((RegistryLive s' ∧ ∀ s'', s'.schedule = .ok s'' → RegistryLive s'') ↔ o.process) := by
  obtain ⟨q, bl, hp, hr⟩ := reach_steady hs
  obtain ⟨reg, hw⟩ := reach_waits hs
  refine ⟨hw.registryLive, hw.taskFindZombie_ok hp, fun o s' ho hstep => ⟨fun h => ?_, fun hpr => ?_⟩⟩
  · cases o with
    | taskExit =>
      obtain ⟨x, hx, _⟩ := exists_of_stateOf hr
      have hc : Registered s s.current := (registered_iff hw.chain _).2 ((hw.all _).2 (by simp [hx]))
      rcases taskExit_dangles hp hr ho.possible.2 hc hstep with hn | ⟨s'', h1, hn⟩
      · exact hn h.1
      · exact hn (h.2 s'' h1)
    | _ => trivial
  · have hs' := Reach.step o hs hpr ho hstep
    obtain ⟨q', bl', hp', hr'⟩ := reach_steady hs'
    obtain ⟨reg', hw'⟩ := reach_waits hs'
    refine ⟨hw'.registryLive, fun s'' h2 => ?_⟩
    obtain ⟨s3, q3, h3, _, _, hm, hz, hreg⟩ := schedule_moves hp' hw'.dead (by simp [hr'])
    obtain rfl := Except.ok.inj (h3.symm.trans h2)
    exact (hw'.moves hm hz hreg).registryLive

/-- a kernel thread ends; its structure is freed and still first in the registry, where the next search comes to it -/
theorem exited_thread_registered : ∃ s, Reach (fun _ => True) 0x1000 s ∧ Registered s 0x2000 ∧ s.tasks 0x2000 = none ∧
    0x2000 ∈ s.freed ∧ s.taskFindZombie 1 (-1) = .error .wild := by
  have h0 : Reach (fun _ => True) 0x1000 _ := Reach.init 1 0x4000 (by decide) rfl
  have h1 := Reach.step (.taskCreate 0x2000 0x8000) h0 trivial ⟨⟨⟨_, rfl, rfl⟩, Or.inr ⟨rfl, by decide⟩⟩, by decide⟩ rfl
  have h2 := Reach.step .start h1 trivial ⟨rfl, by decide⟩ rfl
  have h3 := Reach.step .taskExit h2 trivial ⟨⟨⟨_, rfl, rfl⟩, by decide⟩, by decide⟩ rfl
  exact ⟨_, h3, Registered.head (by decide), rfl, by decide, rfl⟩

theorem registry_live_woken : ∃ s, Reach Op.process 0x1000 s ∧ s.stateOf 0x3000 = some .zombie ∧ RegistryLive s := by
  obtain ⟨s, hs, _, hz⟩ := reach_woken
  exact ⟨s, hs, hz, (registry_live_iff 0x1000 s hs).1⟩

end Uix.Sched
