/-
The task lists in terms of lists of addresses. `Lists s q bl` says that the run queue holds `q` and the blocked list
`bl`, head first.

- `schedEnqueue_spec`, `dequeue_cons`: one end and the other of the queue.
- `wakeupLoop_spec`: the blocked tasks that match go to the end of the queue, in order; the others stay.
- `findZombieLoop_spec`: on a registry that links allocated tasks, the search finds a matching zombie if there is one.
-/
import Uix.Lib.Machine
import Uix.Lib.Links
import Uix.Cpu.Sched

namespace Uix.Sched

open Machine Links List Function

/-! ## Access -/

section Known

variable {s : Sched} {t : ℕ} {x : Task} (h : s.tasks t = some x)
include h

theorem get_ok : s.get t = .ok x := by
  rw [get, h]

theorem setState_ok (st : TaskState) : s.setState t st = .ok (s.put t { x with state := st }) := by
  rw [setState, get_ok h]
  rfl

theorem getNext_ok : s.getNext t = .ok (s.lists.next t) := by
  rw [getNext, get_ok h]
  rfl

theorem setNext_ok (v : ℕ) : s.setNext t v = .ok (s.setLists { s.lists with next := update s.lists.next t v }) := by
  rw [setNext, get_ok h]
  rfl

theorem setLists_setNext (L : TaskLists) (v : ℕ) :
    (s.setLists L).setNext t v = .ok (s.setLists { L with next := update L.next t v }) :=
  setNext_ok (s := s.setLists L) h v

end Known

@[simp] theorem put_tasks (s : Sched) (t : ℕ) (x : Task) : (s.put t x).tasks = update s.tasks t (some x) := rfl
@[simp] theorem put_lists (s : Sched) (t : ℕ) (x : Task) : (s.put t x).lists = s.lists := rfl
@[simp] theorem put_zombie (s : Sched) (t : ℕ) (x : Task) : (s.put t x).zombie = s.zombie := rfl
@[simp] theorem put_current (s : Sched) (t : ℕ) (x : Task) : (s.put t x).current = s.current := rfl
@[simp] theorem setLists_tasks (s : Sched) (L : TaskLists) : (s.setLists L).tasks = s.tasks := rfl
@[simp] theorem setLists_lists (s : Sched) (L : TaskLists) : (s.setLists L).lists = L := rfl
@[simp] theorem setLists_setLists (s : Sched) (L L' : TaskLists) : (s.setLists L).setLists L' = s.setLists L' := rfl

/-! ## The two lists -/

/-- the run queue holds `q` and the blocked list `bl` -/
structure Holds (L : TaskLists) (q bl : List ℕ) : Prop where
  queue : Chain L.next L.runqueueHead q
  tail : L.runqueueTail = q.getLastD 0
  size : L.rqSize = q.length
  blocked : Chain L.next L.blockedList bl
  apart : (q ++ bl).Nodup

variable {s : Sched} {q bl : List ℕ} {t : ℕ} {x : Task}

/-- a task goes to the end of the queue -/
theorem schedEnqueue_spec (hl : Holds s.lists q bl) (hq : ∀ u ∈ q, (s.tasks u).isSome) (ht : (s.tasks t).isSome)
    (h0 : t ≠ 0) (hn : t ∉ q ++ bl) :
    ∃ L, s.schedEnqueue t = .ok (s.setLists L) ∧ Holds L (q ++ [t]) bl := by
  obtain ⟨x, hx⟩ := Option.isSome_iff_exists.1 ht
  have hnq : t ∉ q := fun h => hn (mem_append_left _ h)
  have hnb : t ∉ bl := fun h => hn (mem_append_right _ h)
  have hnd : (q ++ [t] ++ bl).Nodup := by
    have := hl.apart
    grind
  rcases eq_nil_or_concat q with rfl | ⟨q', u, rfl⟩
  · refine ⟨⟨update s.lists.next t 0, t, t, s.lists.rqSize + 1, s.lists.blockedList⟩, ?_,
      ⟨rfl, h0, update_self ..⟩, rfl, by simp [hl.size], (seg_update hnb).2 hl.blocked, hnd⟩
    have htail : s.lists.runqueueTail = 0 := hl.tail
    simp only [schedEnqueue, setNext_ok hx, ok_bind, setLists_lists, htail, ne_eq, not_true_eq_false, if_false,
      pure_eq_ok, setLists_setLists]
  · rw [concat_eq_append] at *
    have htail : s.lists.runqueueTail = u := by simpa using hl.tail
    have hu : u ≠ 0 := seg_ne_zero hl.queue u (by simp)
    obtain ⟨y, hy⟩ := Option.isSome_iff_exists.1 (hq u (by simp))
    have hub : u ∉ bl := by
      have := hl.apart
      grind
    refine ⟨⟨update (update s.lists.next t 0) u t, s.lists.runqueueHead, t, s.lists.rqSize + 1,
      s.lists.blockedList⟩, ?_, chain_snoc hl.queue hnq h0, by simp, by simp [hl.size],
      (seg_update hub).2 ((seg_update hnb).2 hl.blocked), hnd⟩
    simp only [schedEnqueue, setNext_ok hx, ok_bind, setLists_lists, htail, ne_eq, hu, not_false_eq_true, if_true,
      setLists_setNext hy, pure_eq_ok, setLists_setLists]

theorem dequeue_nil (hl : Holds s.lists [] bl) : s.dequeue = .ok (0, s) := by
  have : s.lists.runqueueHead = 0 := hl.queue
  simp only [dequeue, this, if_true]
  rfl

/-- the first task leaves the queue -/
theorem dequeue_cons (hl : Holds s.lists (t :: q) bl) (hx : s.tasks t = some x) :
    ∃ L, s.dequeue = .ok (t, s.setLists L) ∧ Holds L q bl := by
  obtain ⟨hhd, h0, hq⟩ := chain_cons.1 hl.queue
  have hnd := hl.apart
  have htb : t ∉ bl := by grind
  refine ⟨⟨update s.lists.next t 0, s.lists.next t, if s.lists.next t = 0 then 0 else s.lists.runqueueTail,
    s.lists.rqSize - 1, s.lists.blockedList⟩, ?_, chain_unlink_head hl.queue, ?_, by simp [hl.size],
    (seg_update htb).2 hl.blocked, by grind⟩
  · simp only [dequeue, hhd, if_neg h0, getNext_ok hx, setLists_setNext hx, ok_bind, pure_eq_ok,
      setLists_lists, setLists_setLists]
  · cases q with
    | nil => rw [if_pos (chain_nil.1 hq)]; rfl
    | cons u q =>
      obtain ⟨hu, hu0, _⟩ := chain_cons.1 hq
      rw [if_neg (hu ▸ hu0), hl.tail]
      simp

/-! ## Waking -/

/-- the task at `t` is one that the exit wakes -/
def wakes (T : ℕ → Option Task) (e p : U64) (t : ℕ) : Bool :=
  match T t with
  | some x => decide (Wakes e p x)
  | none => false

/-- the tasks of `l` that the exit wakes are ready -/
def woken (T : ℕ → Option Task) (e p : U64) (l : List ℕ) : ℕ → Option Task := fun t =>
  if t ∈ l ∧ wakes T e p t then (T t).map fun x => { x with state := .ready } else T t

theorem wakes_of_some {T : ℕ → Option Task} {e p : U64} (h : T t = some x) : wakes T e p t = decide (Wakes e p x) := by
  rw [wakes, h]

theorem wakes_update {T : ℕ → Option Task} {e p : U64} {u : ℕ} (h : u ≠ t) (o : Option Task) :
    wakes (update T t o) e p u = wakes T e p u := by
  rw [wakes, wakes, update_of_ne h]

/-- the link that leads to the blocked task behind `pre` -/
theorem getLink_eq {pre post : List ℕ} (hl : Holds s.lists q (pre ++ post)) (ha : ∀ u ∈ pre, (s.tasks u).isSome) :
    s.getLink pre.getLast? = .ok (post.headD 0) := by
  obtain ⟨c, h1, h2⟩ := seg_append.1 hl.blocked
  rcases eq_nil_or_concat pre with rfl | ⟨pre', u, rfl⟩
  · exact congrArg Except.ok ((seg_nil.1 h1).trans (chain_head h2))
  · rw [concat_eq_append] at *
    obtain ⟨x, hx⟩ := Option.isSome_iff_exists.1 (ha u (by simp))
    rw [getLast?_concat, getLink, getNext_ok hx, seg_last h1, chain_head h2]

/-- a blocked task leaves its list -/
theorem unlink_spec {pre post : List ℕ} (hl : Holds s.lists q (pre ++ t :: post)) (ha : ∀ u ∈ pre, (s.tasks u).isSome)
    (hx : s.tasks t = some x) :
    ∃ s1 L, s.setLink pre.getLast? (s.lists.next t) = .ok s1 ∧ s1.setNext t 0 = .ok (s.setLists L) ∧
      Holds L q (pre ++ post) := by
  have hnd := hl.apart
  have htq : t ∉ q := by grind
  have hnd' : (q ++ (pre ++ post)).Nodup := by grind
  rcases eq_nil_or_concat pre with rfl | ⟨pre', u, rfl⟩
  · refine ⟨_, _, rfl, setLists_setNext hx _ 0, (seg_update htq).2 hl.queue, hl.tail, hl.size,
      chain_unlink_head hl.blocked, hnd'⟩
  · rw [concat_eq_append] at *
    obtain ⟨y, hy⟩ := Option.isSome_iff_exists.1 (ha u (by simp))
    have huq : u ∉ q := by grind
    rw [getLast?_concat]
    exact ⟨_, _, setNext_ok hy _, setLists_setNext hx _ 0, (seg_update htq).2 ((seg_update huq).2 hl.queue),
      hl.tail, hl.size, chain_unlink hl.blocked, hnd'⟩

theorem woken_cons_of_wakes {T : ℕ → Option Task} {e p : U64} {post : List ℕ} (hx : T t = some x) (hw : Wakes e p x)
    (ht : t ∉ post) :
    woken (update T t (some { x with state := .ready })) e p post = woken T e p (t :: post) := by
  funext u
  unfold woken
  by_cases hu : u = t
  · subst hu
    simp [ht, hx, wakes_of_some hx, hw]
  · rw [wakes_update hu, update_of_ne hu]
    simp [hu]

theorem woken_cons_of_not {T : ℕ → Option Task} {e p : U64} {post : List ℕ} (hx : T t = some x) (hw : ¬ Wakes e p x) :
    woken T e p (t :: post) = woken T e p post := by
  funext u
  unfold woken
  by_cases hu : u = t
  · subst hu
    simp [wakes_of_some hx, hw]
  · simp [hu]

/-- **Waking.** The tasks behind `pre` that match go to the end of the run queue, the others stay blocked. -/
theorem wakeupLoop_spec (e p : U64) (k : ℕ) (pre post : List ℕ) (hl : Holds s.lists q (pre ++ post))
    (ha : ∀ u ∈ q ++ (pre ++ post), (s.tasks u).isSome) (hk : post.length < k) :
    ∃ L, wakeupLoop e p k pre.getLast? s = .ok ({ s with tasks := woken s.tasks e p post }.setLists L) ∧
      Holds L (q ++ post.filter (wakes s.tasks e p)) (pre ++ post.filter fun u => !wakes s.tasks e p u) := by
  -- induction on the tasks still to be looked at; the link `pp` is the one out of the last task kept
  induction post generalizing s q pre k with
  | nil =>
    obtain ⟨k, rfl⟩ : ∃ j, k = j + 1 := ⟨k - 1, by simp at hk; omega⟩
    refine ⟨s.lists, ?_, by simpa using hl⟩
    have hw : woken s.tasks e p [] = s.tasks := funext fun t => if_neg (by simp)
    rw [wakeupLoop, getLink_eq hl fun u hu => ha u (by simp [hu]), ok_bind, hw]
    rfl
  | cons t post ih =>
    obtain ⟨k, rfl⟩ : ∃ j, k = j + 1 := ⟨k - 1, by simp at hk; omega⟩
    obtain ⟨x, hx⟩ := Option.isSome_iff_exists.1 (ha t (by simp))
    have hnd := hl.apart
    have ht0 : t ≠ 0 := seg_ne_zero hl.blocked t (by simp)
    rw [wakeupLoop, getLink_eq hl fun u hu => ha u (by simp [hu]), ok_bind, headD_cons, if_neg ht0, get_ok hx, ok_bind]
    by_cases hw : Wakes e p x
    · have hwt : wakes s.tasks e p t = true := by rw [wakes_of_some hx, decide_eq_true hw]
      obtain ⟨s1, L1, h1, h2, hl1⟩ := unlink_spec hl (fun u hu => ha u (by simp [hu])) hx
      have h3 : (s.setLists L1).setState t .ready = _ := setState_ok (s := s.setLists L1) hx .ready
      have ha' : ∀ u ∈ q ++ (pre ++ t :: post), (update s.tasks t (some { x with state := .ready }) u).isSome :=
        fun u hu => by
          by_cases hut : u = t
          · simp [hut]
          · rw [update_of_ne hut]
            exact ha u hu
      obtain ⟨L2, h4, hl2⟩ := schedEnqueue_spec (s := (s.setLists L1).put t { x with state := .ready }) (t := t) hl1
        (fun u hu => ha' u (by simp [hu])) (ha' t (by simp)) ht0 (by grind)
      obtain ⟨L3, h5, hl3⟩ := ih (s := ((s.setLists L1).put t { x with state := .ready }).setLists L2) k pre hl2
        (fun u hu => ha' u (by grind)) (by simpa using hk)
      have hfil : ∀ u ∈ post, wakes (update s.tasks t (some { x with state := .ready })) e p u =
          wakes s.tasks e p u := fun u hu => wakes_update (by grind) _
      refine ⟨L3, ?_, ?_⟩
      · rw [if_pos hw, getNext_ok hx, ok_bind, h1, ok_bind, h2, ok_bind, h3, ok_bind, h4, ok_bind, h5,
          ← woken_cons_of_wakes hx hw (by grind)]
        rfl
      · simp only [filter_cons, hwt, Bool.not_true, if_true, Bool.false_eq_true, if_false]
        simp only [setLists_tasks, put_tasks] at hl3
        rw [filter_congr hfil, filter_congr fun u hu => congrArg _ (hfil u hu)] at hl3
        simpa using hl3
    · have hwt : wakes s.tasks e p t = false := by rw [wakes_of_some hx, decide_eq_false hw]
      have hl' : Holds s.lists q (pre ++ [t] ++ post) := by simpa using hl
      obtain ⟨L, h1, h2⟩ := ih k (pre ++ [t]) hl' (by simpa using ha) (by simpa using hk)
      refine ⟨L, ?_, by simpa [hwt] using h2⟩
      rw [getLast?_concat] at h1
      rw [if_neg hw, h1, woken_cons_of_not hx hw]

/-! ## The registry -/

/-- **Looking for a zombie.** On a registry that links allocated tasks the search ends; it finds a task that matches, or
there is none. -/
theorem findZombieLoop_spec (ppid want : U64) {k a : ℕ} {reg : List ℕ} (hc : Chain s.nextAll a reg)
    (ha : ∀ u ∈ reg, (s.tasks u).isSome) (hk : reg.length < k) :
    (s.findZombieLoop ppid want k a = .ok 0 ∧ ∀ u ∈ reg, ∀ x, s.tasks u = some x → ¬ Reapable ppid want x) ∨
    ∃ z ∈ reg, ∃ x, s.tasks z = some x ∧ Reapable ppid want x ∧ s.findZombieLoop ppid want k a = .ok z := by
  induction reg generalizing a k with
  | nil =>
    obtain ⟨k, rfl⟩ : ∃ j, k = j + 1 := ⟨k - 1, by simp at hk; omega⟩
    exact Or.inl ⟨by rw [findZombieLoop, if_pos (chain_nil.1 hc)]; rfl, by simp⟩
  | cons t reg ih =>
    obtain ⟨k, rfl⟩ : ∃ j, k = j + 1 := ⟨k - 1, by simp at hk; omega⟩
    obtain ⟨rfl, ht, hc⟩ := chain_cons.1 hc
    obtain ⟨x, hx⟩ := Option.isSome_iff_exists.1 (ha a (by simp))
    rw [findZombieLoop, if_neg ht, get_ok hx, ok_bind]
    by_cases hr : Reapable ppid want x
    · exact Or.inr ⟨a, by simp, x, hx, hr, by rw [if_pos hr]; rfl⟩
    · rw [if_neg hr]
      rcases ih hc (fun u hu => ha u (by simp [hu])) (by simpa using hk) with ⟨h1, h2⟩ | ⟨z, hz, h⟩
      · refine Or.inl ⟨h1, forall_mem_cons.2 ⟨fun y hy => ?_, h2⟩⟩
        rw [hx, Option.some.injEq] at hy
        exact hy ▸ hr
      · exact Or.inr ⟨z, mem_cons_of_mem _ hz, h⟩

end Uix.Sched
