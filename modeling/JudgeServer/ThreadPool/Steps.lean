import JudgeServer.ThreadPool.Pool

/-! What a step of the pool can do, one constructor for each way a thread can go on, and
what it leaves alone: the places of the other threads, but for waiting workers that it
wakes. The mutex always belongs to the one thread that is inside of its section. -/

namespace JudgeServer

open Transition Tally

/-- In the section of `pool->mutex`. -/
def ExecPc.inside : ExecPc → Bool
  | .test | .wait | .check | .leave | .pop | .unlock _ | .fault => true
  | _ => false

def ExecutePc.inside : ExecutePc → Bool
  | .push _ | .signal | .unlock | .fault => true
  | _ => false

def DestroyPc.inside : DestroyPc → Bool
  | .broadcast | .unlock => true
  | _ => false

namespace Pool

variable {n m : ℕ} {p p' : Pool n m} {a : PoolAction n m}

inductive ExecStep (p : Pool n m) (w : Fin n) : Pool n m → Prop
  | stop (hpc : p.workers w = .top) (hc : p.cancelled = true) : ExecStep p w (p.setWorker w .returned)
  | goOn (hpc : p.workers w = .top) (hc : p.cancelled = false) : ExecStep p w (p.setWorker w .lock)
  | enter (hpc : p.workers w = .lock ∨ p.workers w = .woken) (hfree : p.mutex = none) :
      ExecStep p w ({ p with mutex := some (.worker w) }.setWorker w .test)
  | idle (hpc : p.workers w = .test) (hc : p.cancelled = false)
      (hcount : p.tasksQueue.elemsCount = 0) : ExecStep p w (p.setWorker w .wait)
  | ready (hpc : p.workers w = .test) (hc : p.cancelled = true ∨ 0 < p.tasksQueue.elemsCount) :
      ExecStep p w (p.setWorker w .check)
  | sleep (hpc : p.workers w = .wait) :
      ExecStep p w ({ p with mutex := none }.setWorker w .waiting)
  | quit (hpc : p.workers w = .check) (hc : p.cancelled = true) : ExecStep p w (p.setWorker w .leave)
  | fetch (hpc : p.workers w = .check) (hc : p.cancelled = false) : ExecStep p w (p.setWorker w .pop)
  | leave (hpc : p.workers w = .leave) :
      ExecStep p w ({ p with mutex := none }.setWorker w .returned)
  | pop (hpc : p.workers w = .pop) (t : Task) (q : Queue Task)
      (hpop : p.tasksQueue.pop = some (some t, q)) :
      ExecStep p w ({ p with tasksQueue := q, taken := p.taken ++ [t] }.setWorker w (.unlock t))
  | null (hpc : p.workers w = .pop) (hpop : ∀ t q, p.tasksQueue.pop ≠ some (some t, q)) :
      ExecStep p w (p.setWorker w .fault)
  | unlock (t : Task) (hpc : p.workers w = .unlock t) :
      ExecStep p w ({ p with mutex := none }.setWorker w (.call t))
  | call (t : Task) (hpc : p.workers w = .call t) :
      ExecStep p w ({ p with started := p.started ++ [t] }.setWorker w (.running t))
  | complete (t : Task) (hpc : p.workers w = .running t) :
      ExecStep p w ({ p with completed := p.completed ++ [t] }.setWorker w (.lockFree t))
  | lockFree (t : Task) (hpc : p.workers w = .lockFree t) (hfree : p.mutexFree = none) :
      ExecStep p w ({ p with mutexFree := some w }.setWorker w (.free t))
  | free (t : Task) (hpc : p.workers w = .free t) :
      ExecStep p w ({ p with freed := p.freed ++ [t] }.setWorker w .unlockFree)
  | unlockFree (hpc : p.workers w = .unlockFree) :
      ExecStep p w ({ p with mutexFree := none }.setWorker w .top)

theorem exec_cases {w : Fin n} (hs : p.exec w = some p') : ExecStep p w p' := by
  cases hpc : p.workers w with
  | top =>
    simp only [exec, hpc, Option.some.injEq] at hs
    subst hs
    split_ifs with hc
    · exact .stop hpc hc
    · exact .goOn hpc (by simpa using hc)
  | lock =>
    simp only [exec, hpc] at hs
    split_ifs at hs with hfree
    cases hs
    exact .enter (Or.inl hpc) hfree
  | woken =>
    simp only [exec, hpc] at hs
    split_ifs at hs with hfree
    cases hs
    exact .enter (Or.inr hpc) hfree
  | test =>
    simp only [exec, hpc, Option.some.injEq] at hs
    subst hs
    split_ifs with hc
    · exact .idle hpc hc.1 hc.2
    · refine .ready hpc ?_
      by_cases hcancelled : p.cancelled = true
      · exact Or.inl hcancelled
      · exact Or.inr (Nat.pos_of_ne_zero fun hzero => hc ⟨by simpa using hcancelled, hzero⟩)
  | check =>
    simp only [exec, hpc, Option.some.injEq] at hs
    subst hs
    split_ifs with hc
    · exact .quit hpc hc
    · exact .fetch hpc (by simpa using hc)
  | pop =>
    simp only [exec, hpc] at hs
    split at hs
    · rename_i t q hpop
      cases hs
      exact .pop hpc t q hpop
    · rename_i hnone
      cases hs
      exact .null hpc hnone
  | lockFree t =>
    simp only [exec, hpc] at hs
    split_ifs at hs with hfree
    cases hs
    exact .lockFree t hpc hfree
  | wait | leave | unlock t | call t | running t | free t | unlockFree =>
    simp only [exec, hpc, Option.some.injEq] at hs
    subst hs
    constructor
    exact hpc
  | waiting | returned | fault => simp [exec, hpc] at hs

inductive ExecuteStep (p : Pool n m) (j : Fin m) : Pool n m → Prop
  | begin (hpc : p.submitters j = .idle) (hd : p.destroyer = .idle) :
      ExecuteStep p j ({ p with nextTask := p.nextTask + 1 }.setSubmitter j (.lock p.nextTask))
  | enter (t : Task) (hpc : p.submitters j = .lock t) (hfree : p.mutex = none) :
      ExecuteStep p j ({ p with mutex := some (.submitter j) }.setSubmitter j (.push t))
  | push (t : Task) (hpc : p.submitters j = .push t) (q : Queue Task)
      (hpush : p.tasksQueue.push t = some q) : ExecuteStep p j
        ({ p with tasksQueue := q, submitted := p.submitted ++ [t] }.setSubmitter j .signal)
  | dangling (t : Task) (hpc : p.submitters j = .push t) (hpush : p.tasksQueue.push t = none) :
      ExecuteStep p j (p.setSubmitter j .fault)
  | wake (w : Fin n) (hpc : p.submitters j = .signal) (hw : p.workers w = .waiting) :
      ExecuteStep p j ((p.setWorker w .woken).setSubmitter j .unlock)
  | unheard (hpc : p.submitters j = .signal) (hw : ∀ w, p.workers w ≠ .waiting) :
      ExecuteStep p j (p.setSubmitter j .unlock)
  | unlock (hpc : p.submitters j = .unlock) :
      ExecuteStep p j ({ p with mutex := none }.setSubmitter j .idle)

theorem execute_cases {j : Fin m} {wakes : Option (Fin n)} (hs : p.execute j wakes = some p') :
    ExecuteStep p j p' := by
  cases hpc : p.submitters j with
  | idle =>
    simp only [execute, hpc] at hs
    split_ifs at hs with hd
    cases hs
    exact .begin hpc hd
  | lock t =>
    simp only [execute, hpc] at hs
    split_ifs at hs with hfree
    cases hs
    exact .enter t hpc hfree
  | push t =>
    simp only [execute, hpc] at hs
    split at hs
    · rename_i q hpush
      cases hs
      exact .push t hpc q hpush
    · rename_i hpush
      cases hs
      exact .dangling t hpc hpush
  | signal =>
    simp only [execute, hpc] at hs
    split at hs
    · rename_i w
      split_ifs at hs with hw
      cases hs
      exact .wake w hpc hw
    · split_ifs at hs with hw
      cases hs
      exact .unheard hpc hw
  | unlock =>
    simp only [execute, hpc, Option.some.injEq] at hs
    subst hs
    exact .unlock hpc
  | fault => simp [execute, hpc] at hs

inductive DestroyStep (p : Pool n m) : Pool n m → Prop
  | cancel (hpc : p.destroyer = .idle) (hidle : ∀ j, p.submitters j = .idle) :
      DestroyStep p { p with cancelled := true, destroyer := .lock }
  | enter (hpc : p.destroyer = .lock) (hfree : p.mutex = none) :
      DestroyStep p { p with mutex := some .destroyer, destroyer := .broadcast }
  | broadcast (hpc : p.destroyer = .broadcast) : DestroyStep p { p.wakeAll with destroyer := .unlock }
  | unlock (hpc : p.destroyer = .unlock) :
      DestroyStep p { p with mutex := none, destroyer := .join 0 }
  | join (i : Fin n) (hpc : p.destroyer = .join i) (hret : p.workers i = .returned) :
      DestroyStep p { p with destroyer := .join (i + 1) }
  | release (i : ℕ) (hpc : p.destroyer = .join i) (hi : n ≤ i) (ts : List Task)
      (heap : Addr → Option (QueueElem Task)) (hiter : p.tasksQueue.iterate = some ts)
      (hfree : p.tasksQueue.structFree = some heap) : DestroyStep p { p with
        tasksQueue := { p.tasksQueue with heap := heap }
        released := ts
        destroyer := .done }
  | dangling (i : ℕ) (hpc : p.destroyer = .join i) (hi : n ≤ i)
      (hfault : p.tasksQueue.iterate = none ∨ p.tasksQueue.structFree = none) :
      DestroyStep p { p with destroyer := .fault }

theorem destroy_cases (hs : p.destroy = some p') : DestroyStep p p' := by
  cases hpc : p.destroyer with
  | idle =>
    simp only [destroy, hpc] at hs
    split_ifs at hs with hidle
    cases hs
    exact .cancel hpc hidle
  | lock =>
    simp only [destroy, hpc] at hs
    split_ifs at hs with hfree
    cases hs
    exact .enter hpc hfree
  | broadcast =>
    simp only [destroy, hpc, Option.some.injEq] at hs
    subst hs
    exact .broadcast hpc
  | unlock =>
    simp only [destroy, hpc, Option.some.injEq] at hs
    subst hs
    exact .unlock hpc
  | join i =>
    simp only [destroy, hpc] at hs
    split_ifs at hs with hi hret
    · cases hs
      exact .join ⟨i, hi⟩ hpc hret
    · split at hs
      · rename_i ts heap hiter hfree
        cases hs
        exact .release i hpc (Nat.le_of_not_lt hi) ts heap hiter hfree
      · rename_i hfault
        cases hs
        refine .dangling i hpc (Nat.le_of_not_lt hi) ?_
        cases hiter : p.tasksQueue.iterate with
        | none => exact Or.inl rfl
        | some ts =>
          cases hfree : p.tasksQueue.structFree with
          | none => exact Or.inr rfl
          | some heap => exact absurd hfree (hfault ts heap hiter)
  | done | fault => simp [destroy, hpc] at hs

/-- A step of the pool. -/
inductive Moved (p : Pool n m) : PoolAction n m → Pool n m → Prop
  | exec (w : Fin n) {p' : Pool n m} (h : ExecStep p w p') : Moved p (.exec w) p'
  | spurious (w : Fin n) (hw : p.workers w = .waiting) : Moved p (.spurious w) (p.setWorker w .woken)
  | execute (j : Fin m) (wakes : Option (Fin n)) {p' : Pool n m} (h : ExecuteStep p j p') :
      Moved p (.execute j wakes) p'
  | destroy {p' : Pool n m} (h : DestroyStep p p') : Moved p .destroy p'

theorem step_cases (hs : p.step a = some p') : Moved p a p' := by
  cases a with
  | exec w => exact .exec w (exec_cases hs)
  | spurious w =>
    simp only [step] at hs
    split_ifs at hs with hw
    cases hs
    exact .spurious w hw
  | execute j wakes => exact .execute j wakes (execute_cases hs)
  | destroy => exact .destroy (destroy_cases hs)

/-- The thread that has the mutex, or could have it. -/
def holds (p : Pool n m) : Holder n m → Bool
  | .worker w => (p.workers w).inside
  | .submitter j => (p.submitters j).inside
  | .destroyer => p.destroyer.inside

def Locked (p : Pool n m) : Prop := ∀ h, p.holds h = true ↔ p.mutex = some h

@[simp] theorem holds_setWorker_same (p : Pool n m) (w : Fin n) (pc : ExecPc) :
    (p.setWorker w pc).holds (.worker w) = pc.inside := by simp [holds]

theorem holds_setWorker_other (p : Pool n m) {w : Fin n} (pc : ExecPc) {k : Holder n m}
    (hk : k ≠ .worker w) : (p.setWorker w pc).holds k = p.holds k := by
  cases k with
  | worker v =>
    have hv : v ≠ w := fun heq => hk (by rw [heq])
    simp only [holds, p.setWorker_other pc hv]
  | submitter | destroyer => rfl

@[simp] theorem holds_setSubmitter_same (p : Pool n m) (j : Fin m) (pc : ExecutePc) :
    (p.setSubmitter j pc).holds (.submitter j) = pc.inside := by simp [holds]

theorem holds_setSubmitter_other (p : Pool n m) {j : Fin m} (pc : ExecutePc) {k : Holder n m}
    (hk : k ≠ .submitter j) : (p.setSubmitter j pc).holds k = p.holds k := by
  cases k with
  | submitter i =>
    have hi : i ≠ j := fun heq => hk (by rw [heq])
    simp only [holds, p.setSubmitter_other pc hi]
  | worker | destroyer => rfl

theorem holds_wakeAll (p : Pool n m) (k : Holder n m) : p.wakeAll.holds k = p.holds k := by
  cases k with
  | worker w =>
    simp only [holds, wakeAll]
    split_ifs with hw
    · rw [hw]
      rfl
    · rfl
  | submitter | destroyer => rfl

namespace Locked

/-- A thread outside goes in. -/
theorem acquire (hl : Locked p) {h : Holder n m} (hfree : p.mutex = none)
    (hmutex : p'.mutex = some h) (hin : p'.holds h = true)
    (hrest : ∀ k, k ≠ h → p'.holds k = p.holds k) : Locked p' := by
  intro k
  by_cases hk : k = h
  · subst hk
    exact iff_of_true hin hmutex
  · rw [hrest k hk, hl k, hfree, hmutex, Option.some.injEq]
    exact iff_of_false (by simp) (Ne.symm hk)

/-- The thread that is inside goes out. -/
theorem release (hl : Locked p) {h : Holder n m} (hin : p.holds h = true) (hmutex : p'.mutex = none)
    (hout : p'.holds h = false) (hrest : ∀ k, k ≠ h → p'.holds k = p.holds k) : Locked p' := by
  intro k
  rw [hmutex]
  by_cases hk : k = h
  · subst hk
    simp [hout]
  · rw [hrest k hk, hl k, (hl h).1 hin, Option.some.injEq]
    exact iff_of_false (Ne.symm hk) (by simp)

theorem stay (hl : Locked p) (hmutex : p'.mutex = p.mutex) (h : Holder n m)
    (hsame : p'.holds h = p.holds h) (hrest : ∀ k, k ≠ h → p'.holds k = p.holds k) : Locked p' := by
  intro k
  by_cases hk : k = h
  · subst hk
    rw [hsame, hl k, hmutex]
  · rw [hrest k hk, hl k, hmutex]

theorem exec (hl : Locked p) {w : Fin n} (h : ExecStep p w p') : Locked p' := by
  have hin : p.holds (.worker w) = (p.workers w).inside := rfl
  cases h with
  | stop hpc | goOn hpc | idle hpc | ready hpc | quit hpc | fetch hpc | pop hpc | null hpc
  | call t hpc | complete t hpc | lockFree t hpc | free t hpc | unlockFree hpc =>
    refine hl.stay rfl (.worker w) ?_ fun k hk => holds_setWorker_other _ _ hk
    rw [holds_setWorker_same, hin, hpc]
    rfl
  | enter hpc hfree =>
    exact hl.acquire hfree rfl (holds_setWorker_same ..) fun k hk => holds_setWorker_other _ _ hk
  | sleep hpc | leave hpc | unlock t hpc =>
    refine hl.release (by rw [hin, hpc]; rfl) rfl (holds_setWorker_same ..) fun k hk => ?_
    exact holds_setWorker_other _ _ hk

theorem execute (hl : Locked p) {j : Fin m} (h : ExecuteStep p j p') : Locked p' := by
  have hin : p.holds (.submitter j) = (p.submitters j).inside := rfl
  cases h with
  | begin hpc | push t hpc | dangling t hpc | unheard hpc =>
    refine hl.stay rfl (.submitter j) ?_ fun k hk => holds_setSubmitter_other _ _ hk
    rw [holds_setSubmitter_same, hin, hpc]
    rfl
  | wake w hpc hw =>
    have hworkers : ∀ k, (p.setWorker w .woken).holds k = p.holds k := by
      intro k
      by_cases hk : k = .worker w
      · subst hk
        rw [holds_setWorker_same]
        simp [holds, hw, ExecPc.inside]
      · exact holds_setWorker_other _ _ hk
    refine hl.stay rfl (.submitter j) ?_ fun k hk => ?_
    · rw [holds_setSubmitter_same, hin, hpc]
      rfl
    · rw [holds_setSubmitter_other _ _ hk, hworkers]
  | enter t hpc hfree =>
    exact hl.acquire hfree rfl (holds_setSubmitter_same ..) fun k hk =>
      holds_setSubmitter_other _ _ hk
  | unlock hpc =>
    refine hl.release (by rw [hin, hpc]; rfl) rfl (holds_setSubmitter_same ..) fun k hk => ?_
    exact holds_setSubmitter_other _ _ hk

theorem destroy (hl : Locked p) (h : DestroyStep p p') : Locked p' := by
  have hin : p.holds .destroyer = p.destroyer.inside := rfl
  have hrest : ∀ {q : Pool n m}, q.workers = p.workers → q.submitters = p.submitters →
      ∀ k, k ≠ .destroyer → q.holds k = p.holds k := by
    intro q hw hj k hk
    cases k with
    | worker v => simp only [holds, hw]
    | submitter i => simp only [holds, hj]
    | destroyer => exact absurd rfl hk
  cases h with
  | cancel hpc | join i hpc | release i hpc | dangling i hpc =>
    refine hl.stay rfl .destroyer ?_ (hrest rfl rfl)
    rw [hin, hpc]
    rfl
  | broadcast hpc =>
    refine hl.stay rfl .destroyer ?_ fun k hk => ?_
    · rw [hin, hpc]
      rfl
    · rw [← p.holds_wakeAll k]
      cases k <;> first | rfl | exact absurd rfl hk
  | enter hpc hfree => exact hl.acquire hfree rfl rfl (hrest rfl rfl)
  | unlock hpc => exact hl.release (by rw [hin, hpc]; rfl) rfl rfl (hrest rfl rfl)

theorem step (hl : Locked p) (h : Moved p a p') : Locked p' := by
  cases h with
  | exec w h => exact hl.exec h
  | execute j wakes h => exact hl.execute h
  | destroy h => exact hl.destroy h
  | spurious w hw =>
    refine hl.stay rfl (.worker w) ?_ fun k hk => holds_setWorker_other _ _ hk
    simp [holds, hw, ExecPc.inside]

end Locked

theorem locked_init : Locked (init n m) := by
  intro k
  cases k <;> simp [holds, init, ExecPc.inside, ExecutePc.inside, DestroyPc.inside]

/-- Only one thread is inside. -/
theorem Locked.unique (hl : Locked p) {h k : Holder n m} (hh : p.holds h = true)
    (hk : p.holds k = true) : h = k := by
  exact Option.some.inj (((hl h).1 hh).symm.trans ((hl k).1 hk))

theorem Locked.worker_unique (hl : Locked p) {v w : Fin n} (hv : (p.workers v).inside = true)
    (hw : (p.workers w).inside = true) : v = w := by
  have heq := hl.unique (h := .worker v) (k := .worker w) hv hw
  exact Holder.worker.inj heq

/-! What stays. -/

theorem ExecStep.others {w : Fin n} (h : ExecStep p w p') :
    (∀ v, v ≠ w → p'.workers v = p.workers v) ∧ p'.submitters = p.submitters ∧
      p'.destroyer = p.destroyer ∧ p'.cancelled = p.cancelled ∧ p'.released = p.released := by
  cases h <;> exact ⟨fun v hv => setWorker_other _ _ hv, rfl, rfl, rfl, rfl⟩

theorem ExecuteStep.others {j : Fin m} (h : ExecuteStep p j p') :
    (∀ i, i ≠ j → p'.submitters i = p.submitters i) ∧ p'.destroyer = p.destroyer ∧
      p'.cancelled = p.cancelled ∧ p'.released = p.released := by
  cases h <;> exact ⟨fun i hi => setSubmitter_other _ _ hi, rfl, rfl, rfl⟩

theorem ExecStep.workers_eq {w : Fin n} (h : ExecStep p w p') :
    p'.workers = Function.update p.workers w (p'.workers w) := by
  funext v
  by_cases hv : v = w
  · subst hv
    rw [Function.update_self]
  · rw [Function.update_of_ne hv, h.others.1 v hv]

theorem ExecuteStep.submitters_eq {j : Fin m} (h : ExecuteStep p j p') :
    p'.submitters = Function.update p.submitters j (p'.submitters j) := by
  funext i
  by_cases hi : i = j
  · subst hi
    rw [Function.update_self]
  · rw [Function.update_of_ne hi, h.others.1 i hi]

/-- A worker that does not wait moves only by its own steps. -/
theorem Moved.worker (h : Moved p a p') {w : Fin n} (hw : a ≠ .exec w) :
    p'.workers w = p.workers w ∨ p.workers w = .waiting ∧ p'.workers w = .woken := by
  have hwake : ∀ {v}, p.workers v = .waiting → (p.setWorker v .woken).workers w = p.workers w ∨
      p.workers w = .waiting ∧ (p.setWorker v .woken).workers w = .woken := by
    intro v hv
    by_cases hvw : w = v
    · subst hvw
      exact Or.inr ⟨hv, p.setWorker_same w .woken⟩
    · exact Or.inl (p.setWorker_other .woken hvw)
  cases h with
  | exec v h => exact Or.inl (h.others.1 w fun heq => hw (by rw [heq]))
  | spurious v hv => exact hwake hv
  | execute j wakes h =>
    cases h with
    | wake v _ hv => exact hwake hv
    | _ => exact Or.inl rfl
  | destroy h =>
    cases h with
    | broadcast =>
      by_cases hwait : p.workers w = .waiting
      · exact Or.inr ⟨hwait, if_pos hwait⟩
      · exact Or.inl (if_neg hwait)
    | _ => exact Or.inl rfl

theorem Moved.submitter (h : Moved p a p') {j : Fin m} (hj : ∀ wakes, a ≠ .execute j wakes) :
    p'.submitters j = p.submitters j := by
  cases h with
  | exec v h => rw [h.others.2.1]
  | spurious => rfl
  | execute i wakes h => exact h.others.1 j fun heq => hj wakes (by rw [heq])
  | destroy h => cases h <;> rfl

theorem Moved.destroyer (h : Moved p a p') (ha : a ≠ .destroy) :
    p'.destroyer = p.destroyer ∧ p'.cancelled = p.cancelled ∧ p'.released = p.released := by
  cases h with
  | exec v h => exact h.others.2.2
  | spurious => exact ⟨rfl, rfl, rfl⟩
  | execute i wakes h => exact h.others.2
  | destroy => exact absurd rfl ha

/-- The flag is never reset. -/
theorem Moved.cancelled (h : Moved p a p') (hc : p.cancelled = true) : p'.cancelled = true := by
  by_cases ha : a = .destroy
  · subst ha
    cases h with
    | destroy h => cases h <;> first | exact hc | rfl
  · rw [(h.destroyer ha).2.1, hc]

/-- The count changes by the thread that has the mutex. -/
theorem Moved.count (h : Moved p a p') :
    p'.tasksQueue.elemsCount = p.tasksQueue.elemsCount ∨ (∃ w, a = .exec w ∧ p.workers w = .pop) ∨
      ∃ j wakes t, a = .execute j wakes ∧ p.submitters j = .push t := by
  cases h with
  | exec w h =>
    cases h with
    | pop hpc => exact Or.inr (Or.inl ⟨w, rfl, hpc⟩)
    | _ => exact Or.inl rfl
  | spurious => exact Or.inl rfl
  | execute j wakes h =>
    cases h with
    | push t hpc => exact Or.inr (Or.inr ⟨j, wakes, t, rfl, hpc⟩)
    | _ => exact Or.inl rfl
  | destroy h => cases h <;> exact Or.inl rfl

/-- While a worker is inside, only its own steps change the count. -/
theorem Moved.count_inside (h : Moved p a p') (hl : Locked p) {w : Fin n}
    (hin : (p.workers w).inside = true) (hw : a ≠ .exec w) :
    p'.tasksQueue.elemsCount = p.tasksQueue.elemsCount := by
  rcases h.count with hsame | ⟨v, rfl, hv⟩ | ⟨j, wakes, t, rfl, hj⟩
  · exact hsame
  · have hvw := hl.worker_unique (v := v) (w := w) (by rw [hv]; rfl) hin
    exact absurd (by rw [hvw]) hw
  · have heq := hl.unique (h := .submitter j) (k := .worker w) (by simp [holds, hj, ExecutePc.inside])
      hin
    cases heq

/-- What the threads know at their places. -/
structure Guards (p : Pool n m) : Prop where
  empty : ∀ w, p.workers w = .wait → p.tasksQueue.elemsCount = 0
  checked : ∀ w, p.workers w = .check → p.cancelled = true ∨ 0 < p.tasksQueue.elemsCount
  popping : ∀ w, p.workers w = .pop → 0 < p.tasksQueue.elemsCount
  last : p.destroyer ≠ .idle → p.cancelled = true ∧ ∀ j, p.submitters j = .idle
  closed : p.destroyer ≠ .idle → p.destroyer ≠ .lock →
    ∀ w, p.workers w ≠ .pop ∧ p.workers w ≠ .wait
  woken : p.destroyer ≠ .idle → p.destroyer ≠ .lock → p.destroyer ≠ .broadcast →
    ∀ w, p.workers w ≠ .waiting
  joined : ∀ i, p.destroyer = .join i → ∀ w : Fin n, w.val < i → p.workers w = .returned
  ended : p.destroyer = .done → ∀ w, p.workers w = .returned

theorem guards_init : Guards (init n m) where
  empty := by simp [init]
  checked := by simp [init]
  popping := by simp [init]
  last h := absurd rfl h
  closed h := absurd rfl h
  woken h := absurd rfl h
  joined := by simp [init]
  ended := by simp [init]

/-! How a worker gets to the places that the guards are about. -/

theorem ExecStep.to_wait {w : Fin n} (h : ExecStep p w p') (hw : p'.workers w = .wait) :
    p.cancelled = false ∧ p'.tasksQueue.elemsCount = 0 := by
  cases h with
  | idle _ hc hcount => exact ⟨hc, hcount⟩
  | _ => simp at hw

theorem ExecStep.to_check {w : Fin n} (h : ExecStep p w p') (hw : p'.workers w = .check) :
    p'.cancelled = true ∨ 0 < p'.tasksQueue.elemsCount := by
  cases h with
  | ready _ hc => exact hc
  | _ => simp at hw

theorem ExecStep.to_pop {w : Fin n} (h : ExecStep p w p') (hw : p'.workers w = .pop) :
    p.workers w = .check ∧ p.cancelled = false ∧
      p'.tasksQueue.elemsCount = p.tasksQueue.elemsCount := by
  cases h with
  | fetch hpc hc => exact ⟨hpc, hc, rfl⟩
  | _ => simp at hw

theorem ExecStep.to_waiting {w : Fin n} (h : ExecStep p w p') (hw : p'.workers w = .waiting) :
    p.workers w = .wait := by
  cases h with
  | sleep hpc => exact hpc
  | _ => simp at hw

theorem Moved.returned (h : Moved p a p') {w : Fin n} (hw : p.workers w = .returned) :
    p'.workers w = .returned := by
  by_cases ha : a = .exec w
  · subst ha
    cases h with
    | exec _ h => cases h <;> simp_all
  · rcases h.worker ha with hsame | ⟨hwait, -⟩
    · rw [hsame, hw]
    · rw [hw] at hwait
      cases hwait

/-- A worker is at this place since before the step, or it has come there now. -/
theorem Moved.arrive (h : Moved p a p') {w : Fin n} {pc : ExecPc} (hw : p'.workers w = pc)
    (hpc : pc ≠ .woken) : (a ≠ .exec w ∧ p.workers w = pc) ∨ a = .exec w ∧ ExecStep p w p' := by
  by_cases ha : a = .exec w
  · subst ha
    cases h with
    | exec _ h => exact Or.inr ⟨rfl, h⟩
  · rcases h.worker ha with hsame | ⟨-, hwoken⟩
    · exact Or.inl ⟨ha, hsame ▸ hw⟩
    · exact absurd (hw.symm.trans hwoken) hpc

namespace Guards

theorem empty_step (hl : Locked p) (hg : Guards p) (h : Moved p a p') (w : Fin n)
    (hw : p'.workers w = .wait) : p'.tasksQueue.elemsCount = 0 := by
  rcases h.arrive hw (by simp) with ⟨ha, hold⟩ | ⟨-, h⟩
  · rw [h.count_inside hl (by rw [hold]; rfl) ha]
    exact hg.empty w hold
  · exact (h.to_wait hw).2

theorem checked_step (hl : Locked p) (hg : Guards p) (h : Moved p a p') (w : Fin n)
    (hw : p'.workers w = .check) : p'.cancelled = true ∨ 0 < p'.tasksQueue.elemsCount := by
  rcases h.arrive hw (by simp) with ⟨ha, hold⟩ | ⟨-, h⟩
  · rw [h.count_inside hl (by rw [hold]; rfl) ha]
    exact (hg.checked w hold).imp_left h.cancelled
  · exact h.to_check hw

theorem popping_step (hl : Locked p) (hg : Guards p) (h : Moved p a p') (w : Fin n)
    (hw : p'.workers w = .pop) : 0 < p'.tasksQueue.elemsCount := by
  rcases h.arrive hw (by simp) with ⟨ha, hold⟩ | ⟨-, h⟩
  · rw [h.count_inside hl (by rw [hold]; rfl) ha]
    exact hg.popping w hold
  · obtain ⟨hcheck, hc, hcount⟩ := h.to_pop hw
    rw [hcount]
    exact (hg.checked w hcheck).resolve_left (by simp [hc])

theorem last_step (hg : Guards p) (h : Moved p a p') (hd : p'.destroyer ≠ .idle) :
    p'.cancelled = true ∧ ∀ j, p'.submitters j = .idle := by
  cases h with
  | exec w h =>
    obtain ⟨-, hsub, hdes, hc, -⟩ := h.others
    rw [hdes] at hd
    rw [hc, hsub]
    exact hg.last hd
  | spurious => exact hg.last hd
  | execute j wakes h =>
    have hdes := h.others.1
    rw [h.others.2.1] at hd
    obtain ⟨-, hidle⟩ := hg.last hd
    -- nobody is in a call any more, and none begins
    cases h with
    | begin _ hdi => exact absurd hdi hd
    | enter t hpc | push t hpc | dangling t hpc | wake w hpc | unheard hpc | unlock hpc =>
      rw [hidle j] at hpc
      cases hpc
  | destroy h =>
    cases h with
    | cancel _ hidle => exact ⟨rfl, hidle⟩
    | enter hpc | broadcast hpc | unlock hpc | join i hpc | release i hpc | dangling i hpc =>
      exact hg.last (by simp [hpc])

theorem closed_step (hl : Locked p) (hg : Guards p) (h : Moved p a p') (hd : p'.destroyer ≠ .idle)
    (hd' : p'.destroyer ≠ .lock) (w : Fin n) : p'.workers w ≠ .pop ∧ p'.workers w ≠ .wait := by
  by_cases ha : a = .destroy
  · subst ha
    have hkeep : ∀ pc : ExecPc, pc ≠ .woken → p'.workers w = pc → p.workers w = pc := by
      intro pc hpc hw
      rcases h.arrive hw hpc with ⟨-, hold⟩ | ⟨hexec, -⟩
      · exact hold
      · cases hexec
    have hold : p.workers w ≠ .pop ∧ p.workers w ≠ .wait := by
      cases h with
      | destroy h =>
        cases h with
        | cancel => exact absurd rfl hd'
        | enter _ hfree =>
          have hout : ∀ pc : ExecPc, pc.inside = true → p.workers w ≠ pc := by
            intro pc hpc hw
            have hin := (hl (.worker w)).1 (by rw [← hpc, ← hw]; rfl)
            rw [hfree] at hin
            cases hin
          exact ⟨hout .pop rfl, hout .wait rfl⟩
        | broadcast hpc | unlock hpc | join i hpc | release i hpc | dangling i hpc =>
          exact hg.closed (by simp [hpc]) (by simp [hpc]) w
    exact ⟨fun hw => hold.1 (hkeep .pop (by simp) hw), fun hw => hold.2 (hkeep .wait (by simp) hw)⟩
  · rw [(h.destroyer ha).1] at hd hd'
    obtain ⟨hpop, hwait⟩ := hg.closed hd hd' w
    have hc := (hg.last hd).1
    refine ⟨fun hw => ?_, fun hw => ?_⟩
    · rcases h.arrive hw (by simp) with ⟨-, hold⟩ | ⟨-, h⟩
      · exact hpop hold
      · rw [(h.to_pop hw).2.1] at hc
        cases hc
    · rcases h.arrive hw (by simp) with ⟨-, hold⟩ | ⟨-, h⟩
      · exact hwait hold
      · rw [(h.to_wait hw).1] at hc
        cases hc

theorem woken_step (hg : Guards p) (h : Moved p a p') (hd : p'.destroyer ≠ .idle)
    (hd' : p'.destroyer ≠ .lock) (hd'' : p'.destroyer ≠ .broadcast) (w : Fin n) :
    p'.workers w ≠ .waiting := by
  intro hw
  rcases h.arrive hw (by simp) with ⟨-, hold⟩ | ⟨-, hexec⟩
  · by_cases ha : a = .destroy
    · subst ha
      cases h with
      | destroy h =>
        cases h with
        | cancel => exact hd' rfl
        | enter => exact hd'' rfl
        | broadcast =>
          have hwoken : p.wakeAll.workers w = .woken := if_pos hold
          exact absurd (hw.symm.trans hwoken) (by simp)
        | unlock hpc | join i hpc | release i hpc | dangling i hpc =>
          exact hg.woken (by simp [hpc]) (by simp [hpc]) (by simp [hpc]) w hold
    · rw [(h.destroyer ha).1] at hd hd' hd''
      exact hg.woken hd hd' hd'' w hold
  · rw [hexec.others.2.2.1] at hd hd'
    exact (hg.closed hd hd' w).2 (hexec.to_waiting hw)

theorem joined_step (hg : Guards p) (h : Moved p a p') (i : ℕ) (hd : p'.destroyer = .join i)
    (w : Fin n) (hw : w.val < i) : p'.workers w = .returned := by
  apply h.returned
  by_cases ha : a = .destroy
  · subst ha
    cases h with
    | destroy h =>
      cases h with
      | unlock =>
        obtain rfl := DestroyPc.join.inj hd
        exact absurd hw (Nat.not_lt_zero _)
      | join k hpc hret =>
        obtain rfl := DestroyPc.join.inj hd
        rcases Nat.lt_succ_iff_lt_or_eq.1 hw with hlt | heq
        · exact hg.joined k hpc w hlt
        · rwa [Fin.ext heq]
      | _ => cases hd
  · rw [(h.destroyer ha).1] at hd
    exact hg.joined i hd w hw

theorem ended_step (hg : Guards p) (h : Moved p a p') (hd : p'.destroyer = .done) (w : Fin n) :
    p'.workers w = .returned := by
  apply h.returned
  by_cases ha : a = .destroy
  · subst ha
    cases h with
    | destroy h =>
      cases h with
      | release i hpc hi => exact hg.joined i hpc w (lt_of_lt_of_le w.isLt hi)
      | _ => cases hd
  · rw [(h.destroyer ha).1] at hd
    exact hg.ended hd w

theorem step (hl : Locked p) (hg : Guards p) (h : Moved p a p') : Guards p' where
  empty := hg.empty_step hl h
  checked := hg.checked_step hl h
  popping := hg.popping_step hl h
  last := hg.last_step h
  closed := hg.closed_step hl h
  woken := hg.woken_step h
  joined := hg.joined_step h
  ended := hg.ended_step h

end Guards

end Pool

end JudgeServer
