/-
Tasks and the scheduler: `src/core/cpu/sched.c`, `task.c`, and the parts of `syscall.c`, `fork.c` and `user.c` that
touch the task lists.

Task structures live at addresses (`tasks`; `none` where no task structure is allocated), with the two link fields
`next` (run queue and blocked list, in `TaskLists`) and `next_all` (registry) as maps of their own. An access to a
structure that is not allocated is `Stop.wild`. Which addresses `kzalloc` and `kmalloc` return is a parameter, as are
the address spaces the VMM returns. Loops over links get 2^64 rounds, more than there are addresses.

The kernel stack a task is suspended on is modelled by `Pc`: what the task does when it is switched in. `log` and
`freed` are ghost records of what happened, newest first.
-/
import Uix.Types

namespace Uix

/-- `TASK_READY` .. `TASK_BLOCKED` -/
inductive TaskState where
  | ready
  | running
  | dead
  | zombie
  | blocked
  deriving DecidableEq

/-- `enum fd_type` -/
inductive FdType where
  | none
  | consoleIn
  | consoleOut
  deriving DecidableEq

/-- `struct proc_fd` -/
structure ProcFd where
  type : FdType
  inUse : Bool
  deriving DecidableEq

/-- `PROC_MAX_FDS` -/
def procMaxFds : ℕ := 16

/-- where a task goes on when it is switched in -/
inductive Pc where
  /-- in a trampoline: it has never run -/
  | fresh
  /-- behind the `schedule()` of a timer tick, and so back in its own code -/
  | run
  /-- behind the `schedule()` of `task_block_any`, in the loop of `wait4(want, status)` -/
  | wait4 (want status : U64)
  deriving DecidableEq

/-- `struct task` -/
structure Task where
  pid : U64
  kstack : ℕ
  cr3 : U64
  state : TaskState
  isUser : Bool
  exitStatus : BitVec 32
  ppid : U64
  blockOn : U64
  fds : Fin procMaxFds → ProcFd
  pc : Pc

/-- the structure as `kzalloc` leaves it -/
def Task.zero : Task := ⟨0, 0, 0, .ready, false, 0, 0, 0, fun _ => ⟨.none, false⟩, .fresh⟩

/-- what happened, for statements about whole histories -/
inductive Event where
  /-- a task got its pid and went on the run queue -/
  | enqueued (t : ℕ) (pid : U64)
  | forked (parent child : ℕ)
  | exited (t : ℕ) (arg : U64)
  /-- `wait4(want, ..)` of task `t` returned `r` and stored the status word, if a place for it was given -/
  | waited (t : ℕ) (want r : U64) (stored : Option U64)

/-- the run queue and the blocked list: the `next` fields, and the variables of `sched.c` that lead into them -/
structure TaskLists where
  next : ℕ → ℕ
  runqueueHead : ℕ
  runqueueTail : ℕ
  rqSize : ℕ
  blockedList : ℕ

/-- the static variables of `sched.c` and `task.c` and the memory of the task structures -/
structure Sched where
  tasks : ℕ → Option Task
  lists : TaskLists
  nextAll : ℕ → ℕ
  ticksSinceSwitch : ℕ
  needResched : Bool
  allTasks : ℕ
  nextPid : U64
  current : ℕ
  zombie : ℕ
  kernelCr3 : U64
  /-- the address space `vmm_switch` last loaded -/
  space : U64
  freed : List ℕ
  log : List Event

namespace Sched

/-- `TIME_SLICE` -/
def timeSlice : ℕ := 2

/-- more rounds than a loop over distinct addresses can take -/
def fuel : ℕ := 2 ^ 64

/-! ## Access to task structures -/

def get (s : Sched) (t : ℕ) : Except Stop Task :=
  match s.tasks t with
  | some x => .ok x
  | none => .error .wild

def put (s : Sched) (t : ℕ) (x : Task) : Sched := { s with tasks := Function.update s.tasks t (some x) }

/-- `t->state = st` -/
def setState (s : Sched) (t : ℕ) (st : TaskState) : Except Stop Sched := do
  let x ← s.get t
  pure (s.put t { x with state := st })

def setLists (s : Sched) (L : TaskLists) : Sched := { s with lists := L }

def getNext (s : Sched) (t : ℕ) : Except Stop ℕ := do
  let _ ← s.get t
  pure (s.lists.next t)

/-- `t->next = v` -/
def setNext (s : Sched) (t v : ℕ) : Except Stop Sched := do
  let _ ← s.get t
  pure (s.setLists { s.lists with next := Function.update s.lists.next t v })

/-- `kzalloc(sizeof(struct task))` at `t` -/
def kzalloc (s : Sched) (t : ℕ) : Sched :=
  { (s.put t Task.zero).setLists { s.lists with next := Function.update s.lists.next t 0 } with
    nextAll := Function.update s.nextAll t 0 }

/-- `kfree` of the task structure `t` -/
def kfreeTask (s : Sched) (t : ℕ) : Sched :=
  { s with tasks := Function.update s.tasks t none, freed := t :: s.freed }

/-- `kfree` of a kernel stack -/
def kfreeStack (s : Sched) (kstack : ℕ) : Sched := { s with freed := kstack :: s.freed }

def record (s : Sched) (e : Event) : Sched := { s with log := e :: s.log }

/-! ## The run queue -/

/-- `sched_enqueue` -/
def schedEnqueue (s : Sched) (t : ℕ) : Except Stop Sched := do
  let s ← s.setNext t 0
  let s ←
    if s.lists.runqueueTail ≠ 0 then s.setNext s.lists.runqueueTail t
    else pure (s.setLists { s.lists with runqueueHead := t })
  pure (s.setLists { s.lists with runqueueTail := t, rqSize := s.lists.rqSize + 1 })

/-- `sched_enqueue_user` -/
def schedEnqueueUser (s : Sched) (t : ℕ) : Except Stop Sched := do
  let x ← s.get t
  let pid := s.nextPid
  let s := { s.put t { x with pid := pid } with nextPid := pid + 1 }
  let s ← s.schedEnqueue t
  pure (s.record (.enqueued t pid))

/-- `dequeue`; 0 when the queue is empty -/
def dequeue (s : Sched) : Except Stop (ℕ × Sched) :=
  let t := s.lists.runqueueHead
  if t = 0 then pure (0, s) else do
    let n ← s.getNext t
    let s := s.setLists { s.lists with runqueueHead := n, runqueueTail := if n = 0 then 0 else s.lists.runqueueTail }
    let s ← s.setNext t 0
    pure (t, s.setLists { s.lists with rqSize := s.lists.rqSize - 1 })

/-! ## The registry -/

/-- `task_register` -/
def taskRegister (s : Sched) (t : ℕ) : Sched :=
  { s with nextAll := Function.update s.nextAll t s.allTasks, allTasks := t }

/-- the test in `task_find_zombie` -/
def Reapable (ppid wantPid : U64) (x : Task) : Prop :=
  x.state = .zombie ∧ x.ppid = ppid ∧ (wantPid = -1 ∨ x.pid = wantPid)

instance (ppid wantPid : U64) (x : Task) : Decidable (Reapable ppid wantPid x) :=
  inferInstanceAs (Decidable (_ ∧ _ ∧ (_ ∨ _)))

/-- the loop of `task_find_zombie` at `t` -/
def findZombieLoop (s : Sched) (ppid wantPid : U64) : ℕ → ℕ → Except Stop ℕ
  | 0, _ => .error .hang
  | k + 1, t =>
    if t = 0 then pure 0 else do
      let x ← s.get t
      if Reapable ppid wantPid x then pure t else findZombieLoop s ppid wantPid k (s.nextAll t)

/-- `task_find_zombie`; 0 when there is none -/
def taskFindZombie (s : Sched) (ppid wantPid : U64) : Except Stop ℕ :=
  s.findZombieLoop ppid wantPid fuel s.allTasks

/-! ## Blocking and waking -/

/-- `*pp`, where `pp` is `&blocked_list` (`none`) or `&b->next` -/
def getLink (s : Sched) : Option ℕ → Except Stop ℕ
  | none => pure s.lists.blockedList
  | some b => s.getNext b

/-- `*pp = v` -/
def setLink (s : Sched) : Option ℕ → ℕ → Except Stop Sched
  | none, v => pure (s.setLists { s.lists with blockedList := v })
  | some b, v => s.setNext b v

/-- `match_any || match_one` -/
def Wakes (exitingPid exitingPpid : U64) (x : Task) : Prop :=
  (x.blockOn = 0 ∧ x.pid = exitingPpid) ∨ x.blockOn = exitingPid

instance (exitingPid exitingPpid : U64) (x : Task) : Decidable (Wakes exitingPid exitingPpid x) :=
  inferInstanceAs (Decidable (_ ∨ _))

/-- the loop of `task_wakeup_children` at the link `pp` -/
def wakeupLoop (exitingPid exitingPpid : U64) : ℕ → Option ℕ → Sched → Except Stop Sched
  | 0, _, _ => .error .hang
  | k + 1, pp, s => do
    let t ← s.getLink pp
    if t = 0 then pure s else
    let x ← s.get t
    if Wakes exitingPid exitingPpid x then
      let s ← s.setLink pp (← s.getNext t)
      let s ← s.setNext t 0
      let s ← s.setState t .ready
      let s ← s.schedEnqueue t
      wakeupLoop exitingPid exitingPpid k pp s
    else wakeupLoop exitingPid exitingPpid k (some t) s

/-- `task_wakeup_children` -/
def taskWakeupChildren (s : Sched) (exitingPid exitingPpid : U64) : Except Stop Sched :=
  wakeupLoop exitingPid exitingPpid fuel none s

/-! ## `schedule` -/

/-- free the dead task left behind, unless it is `prev` -/
def reapZombie (s : Sched) (prev : ℕ) : Except Stop Sched :=
  if s.zombie ≠ 0 ∧ s.zombie ≠ prev then do
    let x ← s.get s.zombie
    pure { (s.kfreeStack x.kstack).kfreeTask s.zombie with zombie := 0 }
  else pure s

def vmmSwitch (s : Sched) (cr3 : U64) : Sched := { s with space := cr3 }

/-- where `schedule` leaves the task `prev`: back in the queue, to be freed later, or on the list it is on -/
def switchOut (s : Sched) (prev : ℕ) (x : Task) : Except Stop Sched :=
  if x.state = .running then do
    let s ← s.setState prev .ready
    s.schedEnqueue prev
  else if x.state = .dead then pure { s with zombie := prev }
  else pure s

/-- the second half of `schedule`: `next` becomes current and goes on where it was suspended -/
def switchIn (s : Sched) (next : ℕ) : Except Stop Sched := do
  let s ← s.setState next .running
  let s := { s with current := next }
  let y ← s.get next
  let s : Sched := if y.cr3 ≠ 0 ∧ y.cr3 ≠ s.kernelCr3 then s.vmmSwitch y.cr3 else s
  -- `switch_to`: a task that has run before is inside its own call of `schedule`
  if y.pc = .fresh then pure (s.put next { y with pc := .run }) else s.reapZombie next

/-- `schedule`, up to the point where the task switched in goes on on its own -/
def schedule (s : Sched) : Except Stop Sched := do
  let prev := s.current
  let s ← s.reapZombie prev
  let (next, s) ← s.dequeue
  let x ← s.get prev
  if next = 0 then
    if x.state = .dead ∨ x.state = .zombie then .error .halt else pure s
  else
    let s ← s.switchOut prev x
    s.switchIn next

/-- `sched_tick` -/
def schedTick (s : Sched) : Except Stop Sched :=
  if s.needResched then { s with needResched := false, ticksSinceSwitch := 0 }.schedule
  else if s.ticksSinceSwitch + 1 < timeSlice then pure { s with ticksSinceSwitch := s.ticksSinceSwitch + 1 }
  else { s with needResched := false, ticksSinceSwitch := 0 }.schedule

/-- `task_yield` -/
def taskYield (s : Sched) : Sched := { s with ticksSinceSwitch := 0, needResched := true }

/-- `task_block_any`, from the loop of `wait4(want, status)` -/
def taskBlockAny (s : Sched) (want status : U64) : Except Stop Sched := do
  let t := s.current
  let x ← s.get t
  let s := s.put t { x with state := .blocked, blockOn := 0, pc := .wait4 want status }
  let s ← s.setNext t s.lists.blockedList
  (s.setLists { s.lists with blockedList := t }).schedule

/-! ## Creating tasks

`t` and `kstack` are what `kzalloc` and `kmalloc` return, `cr3` is the address space the VMM returns. -/

/-- `task_alloc`; 0 when there is no memory -/
def taskAlloc (s : Sched) (t kstack : ℕ) : ℕ × Sched :=
  if t = 0 then (0, s) else
  let s := s.kzalloc t
  if kstack = 0 then (0, s.kfreeTask t) else
  let s := s.put t { Task.zero with kstack := kstack, pid := s.nextPid, state := .ready }
  (t, { s with nextPid := s.nextPid + 1 }.taskRegister t)

/-- the static variables at boot -/
def statics (kernelCr3 : U64) : Sched where
  tasks _ := none
  lists := ⟨fun _ => 0, 0, 0, 0, 0⟩
  nextAll _ := 0
  ticksSinceSwitch := 0
  needResched := false
  allTasks := 0
  nextPid := 1
  current := 0
  zombie := 0
  kernelCr3 := kernelCr3
  space := kernelCr3
  freed := []
  log := []

/-- `task_init` -/
def taskInit (s : Sched) (t kstack : ℕ) : Except Stop Sched := do
  let (t, s) := s.taskAlloc t kstack
  if t = 0 then .error (.panic .taskNoBootstrap) else
  let x ← s.get t
  pure { s.put t { x with state := .running, pc := .run } with current := t }

/-- `sched_init` -/
def schedInit (s : Sched) : Sched := s.setLists { s.lists with runqueueHead := 0, runqueueTail := 0 }

/-- `task_create` -/
def taskCreate (s : Sched) (t kstack : ℕ) : Except Stop Sched :=
  let pid := s.nextPid
  let (t, s) := s.taskAlloc t kstack
  if t = 0 then pure s else do
    let s ← s.schedEnqueue t
    pure (s.record (.enqueued t pid))

/-- `user_task_create`: stdin and two times stdout -/
def userTaskCreate (s : Sched) (t kstack : ℕ) (cr3 : U64) : Except Stop Sched :=
  if t = 0 then pure s else
  let s := s.kzalloc t
  if kstack = 0 then pure (s.kfreeTask t) else
  let fds : Fin procMaxFds → ProcFd := fun i =>
    if i.val = 0 then ⟨.consoleIn, true⟩ else if i.val < 3 then ⟨.consoleOut, true⟩ else ⟨.none, false⟩
  let s := s.put t { Task.zero with kstack := kstack, state := .ready, isUser := true, fds := fds, cr3 := cr3 }
  let s := s.taskRegister t
  (s.vmmSwitch s.kernelCr3).schedEnqueueUser t

/-- `do_fork` by the current task -/
def doFork (s : Sched) (t kstack : ℕ) (cr3 : U64) : Except Stop Sched :=
  if t = 0 then pure s else
  let s := s.kzalloc t
  if kstack = 0 then pure (s.kfreeTask t) else do
    let parent ← s.get s.current
    let s := s.put t { Task.zero with
      kstack := kstack, isUser := true, state := .ready, ppid := parent.pid, cr3 := cr3, fds := parent.fds }
    let s := s.taskRegister t
    let s ← s.schedEnqueueUser t
    pure (s.record (.forked s.current t))

/-! ## Ending tasks -/

/-- `SYS_exit` -/
def sysExit (s : Sched) (rdi : U64) : Except Stop Sched := do
  let t := s.current
  let x ← s.get t
  let s := s.put t { x with exitStatus := rdi.setWidth 32, state := .zombie }
  let s ← s.taskWakeupChildren x.pid x.ppid
  (s.record (.exited t rdi)).schedule

/-- `task_exit` -/
def taskExit (s : Sched) : Except Stop Sched := do
  let s ← s.setState s.current .dead
  s.schedule

/-- one round of the loop of `SYS_wait4` -/
def wait4Round (s : Sched) (want status : U64) : Except Stop Sched := do
  let t := s.current
  let x ← s.get t
  let z ← s.taskFindZombie x.pid want
  if z ≠ 0 then
    let y ← s.get z
    let stored := if status ≠ 0 then some (y.exitStatus.signExtend 64) else none
    let s := s.put z { y with state := .dead }
    let x ← s.get t
    pure ((s.put t { x with pc := .run }).record (.waited t want y.pid stored))
  else s.taskBlockAny want status

end Sched

end Uix
