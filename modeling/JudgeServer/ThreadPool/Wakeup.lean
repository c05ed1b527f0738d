import JudgeServer.ThreadPool.Once

/-! No wakeup is lost. A signal may wake a worker that finds its task taken by another
one, so what is kept is a count: while a worker waits, there are at most as many tasks in
the queue as workers on their way to it. Once the broadcast is out, nobody waits, and
what the threads have still to do goes down with every step. -/

namespace JudgeServer

open Transition Tally

/-- A worker in the section that may go on to take a task. -/
def ExecPc.fetching : ExecPc → ℕ
  | .test | .check | .pop => 1
  | _ => 0

/-- A submitter that has pushed a task and not signalled yet. -/
def ExecutePc.signalling : ExecutePc → ℕ
  | .signal => 1
  | _ => 0

def ExecPc.awake : ExecPc → ℕ
  | .woken => 1
  | _ => 0

namespace Pool

variable {n m : ℕ} {p p' : Pool n m} {a : PoolAction n m}

/-- Threads that will take a task, or wake someone for it. -/
def comers (p : Pool n m) : ℕ :=
  tally ExecPc.awake p.workers + tally ExecPc.fetching p.workers +
    tally ExecutePc.signalling p.submitters

def Enough (p : Pool n m) : Prop :=
  p.cancelled = false → (∃ w, p.workers w = .waiting) → p.tasksQueue.elemsCount ≤ p.comers

theorem enough_init : Enough (init n m) := by
  rintro - ⟨w, hw⟩
  cases hw

/-- The comers after a step of a worker. -/
theorem comers_exec {w : Fin n} (h : ExecStep p w p') :
    p'.comers + (p.workers w).awake + (p.workers w).fetching =
      p.comers + (p'.workers w).awake + (p'.workers w).fetching := by
  have hawake := tally_update ExecPc.awake p.workers w (p'.workers w)
  have hfetching := tally_update ExecPc.fetching p.workers w (p'.workers w)
  rw [← h.workers_eq] at hawake hfetching
  unfold comers
  rw [h.others.2.1]
  omega

theorem waiting_back {w : Fin n} (h : ExecStep p w p') (hw : p'.workers w ≠ .waiting)
    (hwait : ∃ v, p'.workers v = .waiting) : ∃ v, p.workers v = .waiting := by
  obtain ⟨v, hv⟩ := hwait
  have hne : v ≠ w := by
    rintro rfl
    exact hw hv
  exact ⟨v, (h.others.1 v hne).symm.trans hv⟩

theorem Enough.exec (he : Enough p) (hg : Guards p) (hq : Queued p) {w : Fin n}
    (h : ExecStep p w p') : Enough p' := by
  intro hc hwait
  have hcomers := comers_exec h
  have hcount := he (h.others.2.2.2.1 ▸ hc)
  have hback := fun hw => hcount (waiting_back h hw hwait)
  cases h with
  | sleep hpc =>
    have hzero := hg.empty w hpc
    change p.tasksQueue.elemsCount ≤ _
    omega
  | idle hpc hc hzero =>
    change p.tasksQueue.elemsCount ≤ _
    omega
  | quit hpc hc' => exact absurd (hc'.symm.trans hc) (by simp)
  | null hpc hnull =>
    obtain ⟨t, q, xs, hpop, -⟩ := hq.pop_some hg hpc
    exact absurd hpop (hnull t q)
  | pop hpc t q hpop =>
    have hless := Queue.pop_count hpop
    have hbefore := hback (by simp)
    have hpos := hg.popping w hpc
    simp only [hpc, setWorker_same, ExecPc.awake, ExecPc.fetching] at hcomers
    change q.elemsCount ≤ _
    omega
  | enter hpc =>
    have hbefore := hback (by simp)
    change p.tasksQueue.elemsCount ≤ _
    rcases hpc with hpc | hpc <;>
      simp only [hpc, setWorker_same, ExecPc.awake, ExecPc.fetching] at hcomers <;> omega
  | stop hpc | goOn hpc | ready hpc | fetch hpc | leave hpc | unlock t hpc | call t hpc
  | complete t hpc | lockFree t hpc | free t hpc | unlockFree hpc =>
    have hbefore := hback (by simp)
    simp only [hpc, setWorker_same, ExecPc.awake, ExecPc.fetching] at hcomers
    change p.tasksQueue.elemsCount ≤ _
    omega

theorem comers_setSubmitter (p : Pool n m) (j : Fin m) (pc : ExecutePc) :
    (p.setSubmitter j pc).comers + (p.submitters j).signalling = p.comers + pc.signalling := by
  have hsignalling := tally_update ExecutePc.signalling p.submitters j pc
  unfold comers
  simp only [setSubmitter]
  omega

/-- A wakeup brings one more comer. -/
theorem comers_wake {w : Fin n} (hw : p.workers w = .waiting) :
    (p.setWorker w .woken).comers = p.comers + 1 := by
  have hawake := tally_update ExecPc.awake p.workers w .woken
  have hfetching := tally_update ExecPc.fetching p.workers w .woken
  simp only [hw, ExecPc.awake, ExecPc.fetching] at hawake hfetching
  unfold comers
  simp only [setWorker]
  omega

theorem Enough.execute (he : Enough p) (hg : Guards p) (hq : Queued p) {j : Fin m}
    (h : ExecuteStep p j p') : Enough p' := by
  intro hc hwait
  have hcount := he (h.others.2.2.1 ▸ hc)
  have hquiet : ∀ pc : ExecutePc, (p.submitters j).signalling = 0 → pc.signalling = 0 →
      p.comers = (p.setSubmitter j pc).comers := by
    intro pc hold hnew
    have hcomers := comers_setSubmitter p j pc
    omega
  cases h with
  | wake w hpc hw =>
    have hcomers := comers_setSubmitter (p.setWorker w .woken) j .unlock
    have hmore := comers_wake hw
    have hbefore := hcount ⟨w, hw⟩
    change p.tasksQueue.elemsCount ≤ _
    simp only [setWorker, hpc, ExecutePc.signalling] at hcomers hmore ⊢
    omega
  | unheard hpc hw =>
    obtain ⟨w, hwait⟩ := hwait
    exact absurd hwait (hw w)
  | dangling t hpc hnone =>
    obtain ⟨q, xs, hpush, -⟩ := hq.push_some hg (by rw [hpc]; simp) t
    rw [hpush] at hnone
    cases hnone
  | push t hpc q hpush =>
    have hcomers := comers_setSubmitter p j .signal
    have hmore := Queue.push_count hpush
    have hbefore := hcount hwait
    simp only [hpc, ExecutePc.signalling] at hcomers
    change q.elemsCount ≤ (p.setSubmitter j .signal).comers
    omega
  | begin hpc => exact (hcount hwait).trans_eq (hquiet (.lock p.nextTask) (by rw [hpc]; rfl) rfl)
  | enter t hpc => exact (hcount hwait).trans_eq (hquiet (.push t) (by rw [hpc]; rfl) rfl)
  | unlock hpc => exact (hcount hwait).trans_eq (hquiet .idle (by rw [hpc]; rfl) rfl)

theorem Enough.step (he : Enough p) (hg : Guards p) (hq : Queued p) (h : Moved p a p') :
    Enough p' := by
  cases h with
  | exec w h => exact he.exec hg hq h
  | execute j wakes h => exact he.execute hg hq h
  | spurious w hw =>
    intro hc _
    have hbefore := he hc ⟨w, hw⟩
    rw [comers_wake hw]
    exact Nat.le_succ_of_le hbefore
  | destroy h =>
    -- the flag is set from the first step on
    intro hc _
    cases h with
    | cancel => cases hc
    | enter hpc | broadcast hpc | unlock hpc | join i hpc | release i hpc | dangling i hpc =>
      have hset := (hg.last (by simp [hpc])).1
      exact absurd (hset.symm.trans hc) (by simp)

/-- With the mutex free the comers are the workers that were woken. -/
theorem Locked.comers (hl : Locked p) (hfree : p.mutex = none) :
    p.comers = (Finset.univ.filter fun w => p.workers w = .woken).card := by
  have hout : ∀ k, p.holds k = false := by
    intro k
    rw [← Bool.not_eq_true, hl k, hfree]
    simp
  have hfetching : tally ExecPc.fetching p.workers = 0 := by
    rw [tally_eq_zero]
    intro w
    have hw : (p.workers w).inside = false := hout (.worker w)
    cases hpc : p.workers w <;> simp_all [ExecPc.inside, ExecPc.fetching]
  have hsignalling : tally ExecutePc.signalling p.submitters = 0 := by
    rw [tally_eq_zero]
    intro j
    have hj : (p.submitters j).inside = false := hout (.submitter j)
    cases hpc : p.submitters j <;> simp_all [ExecutePc.inside, ExecutePc.signalling]
  have hawake : tally ExecPc.awake p.workers =
      (Finset.univ.filter fun w => p.workers w = .woken).card := by
    rw [Finset.card_filter]
    refine Finset.sum_congr rfl fun w _ => ?_
    cases hpc : p.workers w <;> simp [ExecPc.awake]
  unfold Pool.comers
  omega

end Pool

/-! After the broadcast. -/

/-- `destroy_thread_pool` has performed its broadcast. -/
def DestroyPc.broadcasted (pc : DestroyPc) : Prop := pc ≠ .idle ∧ pc ≠ .lock ∧ pc ≠ .broadcast

/-- Inside the section of `pool->mutex_free`. -/
def ExecPc.freeing : ExecPc → Bool
  | .free _ | .unlockFree => true
  | _ => false

/-- How many steps a worker can still take once the flag is set. -/
def ExecPc.rank : ExecPc → ℕ
  | .returned | .fault => 0
  | .top | .leave => 1
  | .unlockFree | .check => 2
  | .free _ | .test => 3
  | .lockFree _ | .lock | .woken => 4
  | .running _ | .waiting => 5
  | .call _ | .wait => 6
  | .unlock _ => 7
  | .pop => 8

def DestroyPc.rank (n : ℕ) : DestroyPc → ℕ
  | .unlock => n + 2
  | .join i => n - i + 1
  | _ => 0

namespace Pool

variable {n m : ℕ} {p p' : Pool n m} {a : PoolAction n m}

/-- How many steps are left. -/
def left (p : Pool n m) : ℕ := tally ExecPc.rank p.workers + p.destroyer.rank n

def FreeLocked (p : Pool n m) : Prop := ∀ w, p.mutexFree = some w → (p.workers w).freeing = true

theorem freeLocked_init : FreeLocked (init n m) := by simp [FreeLocked, init]

theorem FreeLocked.step (hf : FreeLocked p) (h : Moved p a p') : FreeLocked p' := by
  intro w hw
  have hkeep : p.mutexFree = some w → a ≠ .exec w → (p'.workers w).freeing = true := by
    intro hold ha
    rcases h.worker ha with hsame | ⟨hwait, -⟩
    · rw [hsame]
      exact hf w hold
    · have hin := hf w hold
      rw [hwait] at hin
      cases hin
  cases h with
  | exec v h =>
    by_cases hv : v = w
    · subst hv
      cases h with
      | lockFree | free => simp [ExecPc.freeing]
      | unlockFree => cases hw
      | enter hpc =>
        have hin := hf v hw
        rcases hpc with hpc | hpc <;> rw [hpc] at hin <;> cases hin
      | stop hpc | goOn hpc | idle hpc | ready hpc | sleep hpc | quit hpc | fetch hpc | leave hpc
      | pop hpc | null hpc | unlock t hpc | call t hpc | complete t hpc =>
        have hin := hf v hw
        rw [hpc] at hin
        cases hin
    · have ha : PoolAction.exec (m := m) v ≠ .exec w := fun heq => hv (PoolAction.exec.inj heq)
      cases h with
      | lockFree => exact absurd (Option.some.inj hw) hv
      | unlockFree => cases hw
      | _ => exact hkeep hw ha
  | spurious v hv => exact hkeep hw (by simp)
  | execute j wakes h => cases h <;> exact hkeep hw (by simp)
  | destroy h => cases h <;> exact hkeep hw (by simp)

theorem Moved.broadcasted (h : Moved p a p') (hd : p.destroyer.broadcasted) :
    p'.destroyer.broadcasted := by
  obtain ⟨hidle, hlock, hbroadcast⟩ := hd
  by_cases ha : a = .destroy
  · subst ha
    cases h with
    | destroy h =>
      cases h with
      | cancel hpc => exact absurd hpc hidle
      | enter hpc => exact absurd hpc hlock
      | broadcast hpc => exact absurd hpc hbroadcast
      | _ => simp [DestroyPc.broadcasted]
  · rw [(h.destroyer ha).1]
    exact ⟨hidle, hlock, hbroadcast⟩

/-- With the flag set a worker goes to its return. -/
theorem ExecStep.rank_lt {w : Fin n} (h : ExecStep p w p') (hc : p.cancelled = true) :
    (p'.workers w).rank < (p.workers w).rank := by
  cases h with
  | enter hpc => rcases hpc with hpc | hpc <;> simp [hpc, ExecPc.rank]
  | goOn hpc hc' | idle hpc hc' | fetch hpc hc' => exact absurd (hc.symm.trans hc') (by simp)
  | stop hpc | ready hpc | sleep hpc | quit hpc | leave hpc | pop hpc | null hpc | unlock t hpc
  | call t hpc | complete t hpc | lockFree t hpc | free t hpc | unlockFree hpc =>
    simp [hpc, ExecPc.rank]

/-- Every step after the broadcast leaves less to do. -/
theorem Guards.left_lt (hg : Guards p) (hd : p.destroyer.broadcasted) (h : Moved p a p') :
    p'.left < p.left := by
  obtain ⟨hidle, hlock, hbroadcast⟩ := hd
  obtain ⟨hc, hsub⟩ := hg.last hidle
  cases h with
  | exec w h =>
    have hupdate := tally_update ExecPc.rank p.workers w (p'.workers w)
    have hlt := h.rank_lt hc
    rw [← h.workers_eq] at hupdate
    unfold left
    rw [h.others.2.2.1]
    omega
  | spurious w hw => exact absurd hw (hg.woken hidle hlock hbroadcast w)
  | execute j wakes h =>
    cases h with
    | begin hpc hd => exact absurd hd hidle
    | enter t hpc | push t hpc | dangling t hpc | wake w hpc | unheard hpc | unlock hpc =>
      rw [hsub j] at hpc
      cases hpc
  | destroy h =>
    unfold left
    cases h with
    | cancel hpc => exact absurd hpc hidle
    | enter hpc => exact absurd hpc hlock
    | broadcast hpc => exact absurd hpc hbroadcast
    | unlock hpc =>
      simp only [hpc, DestroyPc.rank]
      omega
    | join i hpc =>
      have hi := i.isLt
      simp only [hpc, DestroyPc.rank]
      omega
    | release i hpc | dangling i hpc =>
      simp only [hpc, DestroyPc.rank]
      omega

/-- A worker at a place where it waits for no mutex can go on. -/
theorem exec_some {w : Fin n} (hlock : p.workers w ≠ .lock) (hwoken : p.workers w ≠ .woken)
    (hwait : p.workers w ≠ .waiting) (hfree : ∀ t, p.workers w ≠ .lockFree t)
    (hret : p.workers w ≠ .returned) (hfault : p.workers w ≠ .fault) :
    ∃ p', p.step (.exec w) = some p' := by
  simp only [step, exec]
  cases hpc : p.workers w with
  | lock => exact absurd hpc hlock
  | woken => exact absurd hpc hwoken
  | waiting => exact absurd hpc hwait
  | lockFree t => exact absurd hpc (hfree t)
  | returned => exact absurd hpc hret
  | fault => exact absurd hpc hfault
  | pop =>
    dsimp only
    split <;> exact ⟨_, rfl⟩
  | _ => exact ⟨_, rfl⟩

/-- Whoever has the mutex after the broadcast is a worker, and it can go on. -/
theorem Locked.holder_some (hl : Locked p) (hg : Guards p) (hq : Queued p) {i : ℕ}
    (hd : p.destroyer = .join i) {h : Holder n m} (hh : p.mutex = some h) :
    ∃ v p', p.step (.exec v) = some p' := by
  have hin := (hl h).2 hh
  cases h with
  | worker v =>
    refine ⟨v, exec_some ?_ ?_ ?_ ?_ ?_ (hq.execSound v)⟩
    all_goals
      intros
      intro hpc
      simp [holds, hpc, ExecPc.inside] at hin
  | submitter j =>
    have hidle := (hg.last (by simp [hd])).2 j
    simp [holds, hidle, ExecutePc.inside] at hin
  | destroyer => simp [holds, hd, DestroyPc.inside] at hin

theorem FreeLocked.holder_some (hf : FreeLocked p) {v : Fin n} (hv : p.mutexFree = some v) :
    ∃ p', p.step (.exec v) = some p' := by
  have hin := hf v hv
  refine exec_some ?_ ?_ ?_ ?_ ?_ ?_
  all_goals
    intros
    intro hpc
    simp [hpc, ExecPc.freeing] at hin

/-- While a worker has not returned, some worker can go on. -/
theorem worker_some (hl : Locked p) (hg : Guards p) (hq : Queued p) (hf : FreeLocked p) {i : ℕ}
    (hd : p.destroyer = .join i) {w : Fin n} (hw : p.workers w ≠ .returned) :
    ∃ v p', p.step (.exec v) = some p' := by
  have henter : p.workers w = .lock ∨ p.workers w = .woken →
      ∃ v p', p.step (.exec v) = some p' := by
    intro hpc
    cases hmutex : p.mutex with
    | some h => exact hl.holder_some hg hq hd hmutex
    | none => rcases hpc with hpc | hpc <;> exact ⟨w, _, by simp only [step, exec, hpc, hmutex]; rfl⟩
  by_cases hlock : p.workers w = .lock
  · exact henter (Or.inl hlock)
  by_cases hwoken : p.workers w = .woken
  · exact henter (Or.inr hwoken)
  by_cases hfree : ∃ t, p.workers w = .lockFree t
  · obtain ⟨t, hpc⟩ := hfree
    cases hmutex : p.mutexFree with
    | some v =>
      obtain ⟨p', hstep⟩ := hf.holder_some hmutex
      exact ⟨v, p', hstep⟩
    | none => exact ⟨w, _, by simp only [step, exec, hpc, hmutex]; rfl⟩
  · have hwait := hg.woken (by simp [hd]) (by simp [hd]) (by simp [hd]) w
    obtain ⟨p', hstep⟩ := exec_some hlock hwoken hwait (fun t hpc => hfree ⟨t, hpc⟩) hw
      (hq.execSound w)
    exact ⟨w, p', hstep⟩

/-- After the broadcast some thread can go on until `destroy_thread_pool` is done. -/
theorem progress (hl : Locked p) (hg : Guards p) (hq : Queued p) (hf : FreeLocked p)
    (hd : p.destroyer.broadcasted) (hnot : p.destroyer ≠ .done) : ∃ a p', p.step a = some p' := by
  cases hpc : p.destroyer with
  | idle => exact absurd hpc hd.1
  | lock => exact absurd hpc hd.2.1
  | broadcast => exact absurd hpc hd.2.2
  | done => exact absurd hpc hnot
  | fault => exact absurd hpc hq.destroySound
  | unlock => exact ⟨.destroy, _, by simp only [step, destroy, hpc]; rfl⟩
  | join i =>
    by_cases hi : i < n
    · by_cases hret : p.workers ⟨i, hi⟩ = .returned
      · exact ⟨.destroy, _, by simp only [step, destroy, hpc, dif_pos hi, if_pos hret]; rfl⟩
      · obtain ⟨v, p', hstep⟩ := worker_some hl hg hq hf hpc hret
        exact ⟨.exec v, p', hstep⟩
    · obtain ⟨xs, hrep, -⟩ := hq.queue (by simp [hpc])
      refine ⟨.destroy, { p with
        tasksQueue := { p.tasksQueue with heap := fun _ => none }
        released := xs
        destroyer := .done }, ?_⟩
      simp only [step, destroy, hpc, dif_neg hi, hrep.iterate, hrep.structFree]

end Pool

/-- No wakeup is lost, and after the broadcast every join can finish: whichever thread
goes on, there are at most `N` steps left, and as long as `destroy_thread_pool` is not
done there is a next one. -/
structure NoLostWakeup {n m : ℕ} (p : Pool n m) : Prop where
  enough : (∃ w, p.workers w = .waiting) → p.mutex = none → p.cancelled = false →
    p.tasksQueue.elemsCount ≤ (Finset.univ.filter fun w => p.workers w = .woken).card
  awake : p.destroyer.broadcasted → ∀ as p', Run Pool.step p as p' → ∀ w, p'.workers w ≠ .waiting
  joins : p.destroyer.broadcasted → ∃ N, ∀ as p', Run Pool.step p as p' →
    as.length ≤ N ∧ (p'.destroyer = .done ∨ ∃ a p'', p'.step a = some p'')

/-- What is kept of a pool. -/
structure PoolKept {n m : ℕ} (p : Pool n m) : Prop where
  locked : p.Locked
  guards : p.Guards
  queued : p.Queued
  enough : p.Enough
  freeLocked : p.FreeLocked

theorem PoolKept.step {n m : ℕ} {p p' : Pool n m} {a : PoolAction n m} (h : PoolKept p)
    (hs : p.step a = some p') : PoolKept p' := by
  have hm := Pool.step_cases hs
  exact ⟨h.locked.step hm, h.guards.step h.locked hm, h.queued.step h.guards hm,
    h.enough.step h.guards h.queued hm, h.freeLocked.step hm⟩

theorem PoolKept.run {n m : ℕ} {p p' : Pool n m} {as : List (PoolAction n m)} (h : PoolKept p)
    (hr : Run Pool.step p as p') : PoolKept p' := hr.invariant h fun _ _ _ => PoolKept.step

theorem poolReaches_kept {n m : ℕ} {as : List (PoolAction n m)} {p : Pool n m}
    (h : PoolReaches as p) : PoolKept p :=
  PoolKept.run ⟨Pool.locked_init, Pool.guards_init, Pool.queued_init, Pool.enough_init,
    Pool.freeLocked_init⟩ h

/-- From the broadcast on, the steps left bound every run. -/
theorem PoolKept.run_closing {n m : ℕ} {p p' : Pool n m} {as : List (PoolAction n m)}
    (h : PoolKept p) (hd : p.destroyer.broadcasted) (hr : Run Pool.step p as p') :
    (PoolKept p' ∧ p'.destroyer.broadcasted) ∧ as.length + p'.left ≤ p.left := by
  refine hr.length_add_le (I := fun p => PoolKept p ∧ p.destroyer.broadcasted) ⟨h, hd⟩ ?_
  intro p a p' ⟨hk, hd⟩ hs
  have hm := Pool.step_cases hs
  exact ⟨⟨hk.step hs, hm.broadcasted hd⟩, hk.guards.left_lt hd hm⟩

theorem no_lost_wakeup (n m : ℕ) (as : List (PoolAction n m)) (p : Pool n m)
    (h : PoolReaches as p) : NoLostWakeup p := by
  have hk := poolReaches_kept h
  refine ⟨fun hwait hfree hc => ?_, fun hd bs p' hr w => ?_, fun hd => ⟨p.left, fun bs p' hr => ?_⟩⟩
  · rw [← hk.locked.comers hfree]
    exact hk.enough hc hwait
  · obtain ⟨⟨hk', hd'⟩, -⟩ := hk.run_closing hd hr
    exact hk'.guards.woken hd'.1 hd'.2.1 hd'.2.2 w
  · obtain ⟨⟨hk', hd'⟩, hlen⟩ := hk.run_closing hd hr
    refine ⟨by omega, ?_⟩
    by_cases hdone : p'.destroyer = .done
    · exact Or.inl hdone
    · exact Or.inr (Pool.progress hk'.locked hk'.guards hk'.queued hk'.freeLocked hd' hdone)

/-- Two workers wait, a task is submitted, one of them is woken, and the pool is
destroyed up to the broadcast. -/
def wakeRun : List (PoolAction 2 1) :=
  List.replicate 4 (.exec ⟨0, Nat.zero_lt_two⟩) ++ List.replicate 4 (.exec ⟨1, Nat.one_lt_two⟩) ++
    List.replicate 3 (.execute ⟨0, Nat.zero_lt_one⟩ none) ++
    [.execute ⟨0, Nat.zero_lt_one⟩ (some ⟨1, Nat.one_lt_two⟩), .execute ⟨0, Nat.zero_lt_one⟩ none] ++
    List.replicate 3 .destroy

theorem no_lost_wakeup_broadcast : ∃ p, PoolReaches wakeRun p ∧ p.destroyer = .unlock ∧
    p.tasksQueue.elemsCount = 1 ∧ p.workers 0 = .woken ∧ NoLostWakeup p := by
  have hrun : PoolReaches wakeRun _ := Run.iff_foldlM.2 rfl
  exact ⟨_, hrun, rfl, rfl, rfl, no_lost_wakeup 2 1 wakeRun _ hrun⟩

end JudgeServer
