import JudgeServer.Library.Run
import JudgeServer.Library.Tally
import JudgeServer.Utils.Queue

/-! The thread pool: `n` threads in `thread_exec`, `m` threads that call
`thread_pool_execute`, and one that calls `destroy_thread_pool` after the last
submission. Each access to the mutexes, the condition, the flag or the queue is one
step. -/

namespace JudgeServer

open Transition Tally

/-- The address of a `task`. -/
abbrev Task := ℕ

/-- Where a thread is in `thread_exec`. -/
inductive ExecPc
  | top
  | lock
  | test
  | wait
  | waiting
  | woken
  | check
  | leave
  | pop
  | unlock (t : Task)
  | call (t : Task)
  | running (t : Task)
  | lockFree (t : Task)
  | free (t : Task)
  | unlockFree
  | returned
  | fault
  deriving DecidableEq, Repr

/-- Where a thread is in `thread_pool_execute`. -/
inductive ExecutePc
  | idle
  | lock (t : Task)
  | push (t : Task)
  | signal
  | unlock
  | fault
  deriving DecidableEq, Repr

/-- Where `destroy_thread_pool` is. -/
inductive DestroyPc
  | idle
  | lock
  | broadcast
  | unlock
  | join (i : ℕ)
  | done
  | fault
  deriving DecidableEq, Repr

/-- Who is in the section of `pool->mutex`. -/
inductive Holder (n m : ℕ)
  | worker (w : Fin n)
  | submitter (j : Fin m)
  | destroyer
  deriving DecidableEq, Repr

/-- The pool, the places of its threads, and what has happened to the tasks so far. -/
structure Pool (n m : ℕ) where
  cancelled : Bool
  mutex : Option (Holder n m)
  mutexFree : Option (Fin n)
  tasksQueue : Queue Task
  workers : Fin n → ExecPc
  submitters : Fin m → ExecutePc
  destroyer : DestroyPc
  nextTask : Task
  submitted : List Task
  taken : List Task
  started : List Task
  completed : List Task
  freed : List Task
  released : List Task

/-- A step of a thread, and what the environment decides: spurious wakeups, and whom
`pthread_cond_signal` wakes. -/
inductive PoolAction (n m : ℕ)
  | exec (w : Fin n)
  | spurious (w : Fin n)
  | execute (j : Fin m) (wakes : Option (Fin n))
  | destroy
  deriving DecidableEq, Repr

namespace Pool

variable {n m : ℕ}

/-- `init_thread_pool`, with the threads it has created. -/
def init (n m : ℕ) : Pool n m where
  cancelled := false
  mutex := none
  mutexFree := none
  tasksQueue := .init
  workers := fun _ => .top
  submitters := fun _ => .idle
  destroyer := .idle
  nextTask := 0
  submitted := []
  taken := []
  started := []
  completed := []
  freed := []
  released := []

def setWorker (p : Pool n m) (w : Fin n) (pc : ExecPc) : Pool n m :=
  { p with workers := Function.update p.workers w pc }

def setSubmitter (p : Pool n m) (j : Fin m) (pc : ExecutePc) : Pool n m :=
  { p with submitters := Function.update p.submitters j pc }

/-- A step of `thread_exec`. -/
def exec (p : Pool n m) (w : Fin n) : Option (Pool n m) :=
  match p.workers w with
  | .top => some (p.setWorker w (if p.cancelled then .returned else .lock))
  | .lock =>
    if p.mutex = none then some ({ p with mutex := some (.worker w) }.setWorker w .test) else none
  | .test =>
    some (p.setWorker w
      (if p.cancelled = false ∧ p.tasksQueue.elemsCount = 0 then .wait else .check))
  | .wait => some ({ p with mutex := none }.setWorker w .waiting)
  | .waiting => none
  | .woken =>
    if p.mutex = none then some ({ p with mutex := some (.worker w) }.setWorker w .test) else none
  | .check => some (p.setWorker w (if p.cancelled then .leave else .pop))
  | .leave => some ({ p with mutex := none }.setWorker w .returned)
  | .pop =>
    match p.tasksQueue.pop with
    | some (some t, q) =>
      some ({ p with tasksQueue := q, taken := p.taken ++ [t] }.setWorker w (.unlock t))
    -- the task is a null pointer
    | _ => some (p.setWorker w .fault)
  | .unlock t => some ({ p with mutex := none }.setWorker w (.call t))
  | .call t => some ({ p with started := p.started ++ [t] }.setWorker w (.running t))
  | .running t => some ({ p with completed := p.completed ++ [t] }.setWorker w (.lockFree t))
  | .lockFree t =>
    if p.mutexFree = none then some ({ p with mutexFree := some w }.setWorker w (.free t)) else none
  | .free t => some ({ p with freed := p.freed ++ [t] }.setWorker w .unlockFree)
  | .unlockFree => some ({ p with mutexFree := none }.setWorker w .top)
  | .returned => none
  | .fault => none

/-- A step of `thread_pool_execute`; a call begins only before the pool is destroyed. -/
def execute (p : Pool n m) (j : Fin m) (wakes : Option (Fin n)) : Option (Pool n m) :=
  match p.submitters j with
  | .idle =>
    if p.destroyer = .idle then
      some ({ p with nextTask := p.nextTask + 1 }.setSubmitter j (.lock p.nextTask))
    else none
  | .lock t =>
    if p.mutex = none then some ({ p with mutex := some (.submitter j) }.setSubmitter j (.push t))
    else none
  | .push t =>
    match p.tasksQueue.push t with
    | some q =>
      some ({ p with tasksQueue := q, submitted := p.submitted ++ [t] }.setSubmitter j .signal)
    | none => some (p.setSubmitter j .fault)
  | .signal =>
    match wakes with
    | some w =>
      if p.workers w = .waiting then some ((p.setWorker w .woken).setSubmitter j .unlock) else none
    | none => if ∀ w, p.workers w ≠ .waiting then some (p.setSubmitter j .unlock) else none
  | .unlock => some ({ p with mutex := none }.setSubmitter j .idle)
  | .fault => none

/-- `pthread_cond_broadcast` -/
def wakeAll (p : Pool n m) : Pool n m :=
  { p with workers := fun w => if p.workers w = .waiting then .woken else p.workers w }

/-- A step of `destroy_thread_pool`. -/
def destroy (p : Pool n m) : Option (Pool n m) :=
  match p.destroyer with
  | .idle =>
    if ∀ j, p.submitters j = .idle then some { p with cancelled := true, destroyer := .lock }
    else none
  | .lock =>
    if p.mutex = none then some { p with mutex := some .destroyer, destroyer := .broadcast }
    else none
  | .broadcast => some { p.wakeAll with destroyer := .unlock }
  | .unlock => some { p with mutex := none, destroyer := .join 0 }
  | .join i =>
    if h : i < n then
      if p.workers ⟨i, h⟩ = .returned then some { p with destroyer := .join (i + 1) } else none
    else
      match p.tasksQueue.iterate, p.tasksQueue.structFree with
      | some ts, some heap =>
        some { p with
          tasksQueue := { p.tasksQueue with heap := heap }
          released := ts
          destroyer := .done }
      | _, _ => some { p with destroyer := .fault }
  | .done => none
  | .fault => none

def step (p : Pool n m) : PoolAction n m → Option (Pool n m)
  | .exec w => p.exec w
  | .spurious w => if p.workers w = .waiting then some (p.setWorker w .woken) else none
  | .execute j wakes => p.execute j wakes
  | .destroy => p.destroy

@[simp] theorem setWorker_same (p : Pool n m) (w : Fin n) (pc : ExecPc) :
    (p.setWorker w pc).workers w = pc := Function.update_self ..

theorem setWorker_other (p : Pool n m) {v w : Fin n} (pc : ExecPc) (h : v ≠ w) :
    (p.setWorker w pc).workers v = p.workers v := Function.update_of_ne h ..

@[simp] theorem setSubmitter_same (p : Pool n m) (j : Fin m) (pc : ExecutePc) :
    (p.setSubmitter j pc).submitters j = pc := Function.update_self ..

theorem setSubmitter_other (p : Pool n m) {i j : Fin m} (pc : ExecutePc) (h : i ≠ j) :
    (p.setSubmitter j pc).submitters i = p.submitters i := Function.update_of_ne h ..

end Pool

/-- The reachable states of a pool. -/
def PoolReaches {n m : ℕ} (as : List (PoolAction n m)) (p : Pool n m) : Prop :=
  Run Pool.step (.init n m) as p

end JudgeServer
