import JudgeServer.ThreadPool.Steps

/-! What becomes of the tasks. Each one that is submitted is in the queue, with one
worker, or done; the counts of these places, task by task, go through every step. -/

namespace JudgeServer

open Transition Tally

/-- The task that a worker has taken and not started. -/
def ExecPc.unstarted : ExecPc → List Task
  | .unlock t | .call t => [t]
  | _ => []

/-- The task that a worker runs. -/
def ExecPc.active : ExecPc → List Task
  | .running t => [t]
  | _ => []

/-- The task that a worker has run and not freed. -/
def ExecPc.unfreed : ExecPc → List Task
  | .lockFree t | .free t => [t]
  | _ => []

def ExecutePc.unsubmitted : ExecutePc → List Task
  | .lock t | .push t => [t]
  | _ => []

namespace Pool

variable {n m : ℕ} {p p' : Pool n m} {a : PoolAction n m}

/-- How often the workers hold the task together, by `f`. -/
def held (p : Pool n m) (f : ExecPc → List Task) (x : Task) : ℕ :=
  tally (fun pc => (f pc).count x) p.workers

/-- How often the submitters do. -/
def pending (p : Pool n m) (x : Task) : ℕ := tally (fun pc => pc.unsubmitted.count x) p.submitters

/-- A worker's step changes one summand. -/
theorem ExecStep.held {w : Fin n} (h : ExecStep p w p') (f : ExecPc → List Task) (x : Task) :
    p'.held f x + (f (p.workers w)).count x = p.held f x + (f (p'.workers w)).count x := by
  have hupdate := tally_update (fun pc => (f pc).count x) p.workers w (p'.workers w)
  rwa [← h.workers_eq] at hupdate

theorem ExecuteStep.pending {j : Fin m} (h : ExecuteStep p j p') (x : Task) :
    p'.pending x + (p.submitters j).unsubmitted.count x =
      p.pending x + (p'.submitters j).unsubmitted.count x := by
  have hupdate := tally_update (fun pc => pc.unsubmitted.count x) p.submitters j (p'.submitters j)
  rwa [← h.submitters_eq] at hupdate

/-- Waking workers changes no sum to which they add nothing. -/
theorem Moved.held (h : Moved p a p') (ha : ∀ w, a ≠ .exec w) {f : ExecPc → List Task}
    (hf : f .woken = f .waiting) (x : Task) : p'.held f x = p.held f x := by
  unfold Pool.held tally
  refine Finset.sum_congr rfl fun w _ => ?_
  rcases h.worker (ha w) with hsame | ⟨hwait, hwoken⟩
  · rw [hsame]
  · simp only [hwait, hwoken, hf]

theorem Moved.pending (h : Moved p a p') (ha : ∀ j wakes, a ≠ .execute j wakes) (x : Task) :
    p'.pending x = p.pending x := by
  unfold Pool.pending tally
  refine Finset.sum_congr rfl fun j _ => ?_
  rw [h.submitter (ha j)]

/-- Where each task is, `x` being any of them. -/
structure Ledger (p : Pool n m) : Prop where
  issued : ∀ x, p.submitted.count x + p.pending x = (List.range p.nextTask).count x
  taken : ∀ x, p.taken.count x = p.held ExecPc.unstarted x + p.started.count x
  started : ∀ x, p.started.count x = p.held ExecPc.active x + p.completed.count x
  completed : ∀ x, p.completed.count x = p.held ExecPc.unfreed x + p.freed.count x

/-- The queue is sound, and what has been taken came out of it in order. -/
structure Queued (p : Pool n m) : Prop where
  queue : p.destroyer ≠ .done →
    ∃ xs, p.tasksQueue.Represents xs ∧ p.submitted = p.taken ++ xs ∧ p.released = []
  drained : p.destroyer = .done → p.submitted = p.taken ++ p.released
  execSound : ∀ w, p.workers w ≠ .fault
  executeSound : ∀ j, p.submitters j ≠ .fault
  destroySound : p.destroyer ≠ .fault

theorem ledger_init : Ledger (init n m) where
  issued := by simp [init, Pool.pending, ExecutePc.unsubmitted, tally]
  taken := by simp [init, Pool.held, ExecPc.unstarted, tally]
  started := by simp [init, Pool.held, ExecPc.active, tally]
  completed := by simp [init, Pool.held, ExecPc.unfreed, tally]

theorem queued_init : Queued (init n m) where
  queue _ := ⟨[], Queue.represents_init, rfl, rfl⟩
  drained := by simp [init]
  execSound := by simp [init]
  executeSound := by simp [init]
  destroySound := by simp [init]

/-- What a worker takes, starts, completes and frees, it hands on from stage to stage. -/
theorem ExecStep.balance {w : Fin n} (h : ExecStep p w p') (x : Task) :
    p'.taken.count x + (p.workers w).unstarted.count x + p.started.count x =
        p.taken.count x + (p'.workers w).unstarted.count x + p'.started.count x ∧
      p'.started.count x + (p.workers w).active.count x + p.completed.count x =
        p.started.count x + (p'.workers w).active.count x + p'.completed.count x ∧
      p'.completed.count x + (p.workers w).unfreed.count x + p.freed.count x =
        p.completed.count x + (p'.workers w).unfreed.count x + p'.freed.count x := by
  cases h with
  | enter hpc =>
    rcases hpc with hpc | hpc <;>
      simp only [setWorker, Function.update_self, hpc, ExecPc.unstarted, ExecPc.active,
        ExecPc.unfreed, List.count_nil, and_self]
  | pop hpc | call t hpc | complete t hpc | free t hpc =>
    simp only [setWorker, Function.update_self, hpc, ExecPc.unstarted, ExecPc.active,
      ExecPc.unfreed, List.count_append, List.count_nil, and_true, true_and]
    omega
  | stop hpc | goOn hpc | idle hpc | ready hpc | sleep hpc | quit hpc | fetch hpc | leave hpc
  | null hpc | unlock t hpc | lockFree t hpc | unlockFree hpc =>
    simp only [setWorker, Function.update_self, hpc, ExecPc.unstarted, ExecPc.active,
      ExecPc.unfreed, List.count_nil, and_self]

namespace Ledger

theorem execute_issued (h : Ledger p) {j : Fin m} (hs : ExecuteStep p j p')
    (hpush : ∀ t, p.submitters j = .push t → p.tasksQueue.push t ≠ none) (x : Task) :
    p'.submitted.count x + p'.pending x = (List.range p'.nextTask).count x := by
  have hbefore := h.issued x
  have hpending := hs.pending x
  cases hs with
  | begin hpc =>
    simp only [setSubmitter, Function.update_self, hpc, ExecutePc.unsubmitted, List.count_nil,
      List.range_succ, List.count_append] at hpending ⊢
    omega
  | dangling t hpc hnone => exact absurd hnone (hpush t hpc)
  | enter t hpc | push t hpc | wake w hpc | unheard hpc | unlock hpc =>
    simp only [setSubmitter, setWorker, Function.update_self, hpc, ExecutePc.unsubmitted,
      List.count_append, List.count_nil] at hpending ⊢
    omega

end Ledger

/-- After the release nothing happens any more. -/
theorem Guards.final (hg : Guards p) (hd : p.destroyer = .done) : ¬ Moved p a p' := by
  intro hs
  have hret := hg.ended hd
  have hidle := (hg.last (by simp [hd])).2
  cases hs with
  | exec w h => cases h <;> simp_all
  | spurious w hw => simp_all
  | execute j wakes h => cases h <;> simp_all
  | destroy h => cases h <;> simp_all

theorem Queued.pop_some (hq : Queued p) (hg : Guards p) {w : Fin n} (hw : p.workers w = .pop) :
    ∃ t q xs, p.tasksQueue.pop = some (some t, q) ∧ q.Represents xs ∧
      p.submitted = p.taken ++ [t] ++ xs ∧ p.released = [] := by
  have hlive : p.destroyer ≠ .done := by
    intro hd
    rw [hg.ended hd w] at hw
    cases hw
  obtain ⟨xs, hrep, hsub, hrel⟩ := hq.queue hlive
  have hpos := hg.popping w hw
  rw [hrep.count] at hpos
  obtain ⟨t, xs, rfl⟩ := List.exists_cons_of_length_pos hpos
  obtain ⟨q, hpop, hrest⟩ := hrep.pop_cons
  exact ⟨t, q, xs, hpop, hrest, by simp [hsub], hrel⟩

theorem Queued.push_some (hq : Queued p) (hg : Guards p) {j : Fin m} (hj : p.submitters j ≠ .idle)
    (t : Task) : ∃ q xs, p.tasksQueue.push t = some q ∧ q.Represents (xs ++ [t]) ∧
      p.submitted = p.taken ++ xs ∧ p.released = [] := by
  have hlive : p.destroyer ≠ .done := by
    intro hd
    exact hj ((hg.last (by simp [hd])).2 j)
  obtain ⟨xs, hrep, hsub, hrel⟩ := hq.queue hlive
  obtain ⟨q, hpush, hrest⟩ := hrep.push t
  exact ⟨q, xs, hpush, hrest, hsub, hrel⟩

namespace Queued

theorem exec (hq : Queued p) (hg : Guards p) {w : Fin n} (hs : ExecStep p w p') : Queued p' := by
  have hdes := hs.others.2.2.1
  have hdone : p'.destroyer ≠ .done := by
    intro hd
    rw [hdes] at hd
    exact hg.final hd (.exec w hs)
  have hothers := hs.others
  refine ⟨fun hlive => ?_, fun hd => absurd hd hdone, fun v => ?_, ?_, ?_⟩
  · cases hs with
    | pop hpc t q hpop =>
      obtain ⟨t', q', xs, hpop', hrest, hsub, hrel⟩ := hq.pop_some hg hpc
      obtain ⟨rfl, rfl⟩ : t = t' ∧ q = q' := by simpa [hpop] using hpop'
      exact ⟨xs, hrest, hsub, hrel⟩
    | null hpc hnull =>
      obtain ⟨t, q, xs, hpop, -⟩ := hq.pop_some hg hpc
      exact absurd hpop (hnull t q)
    | _ => exact hq.queue hlive
  · by_cases hv : v = w
    · subst hv
      cases hs with
      | null hpc hnull =>
        obtain ⟨t, q, xs, hpop, -⟩ := hq.pop_some hg hpc
        exact absurd hpop (hnull t q)
      | _ => simp
    · rw [hothers.1 v hv]
      exact hq.execSound v
  · rw [hothers.2.1]
    exact hq.executeSound
  · rw [hdes]
    exact hq.destroySound

theorem execute (hq : Queued p) (hg : Guards p) {j : Fin m} (wakes : Option (Fin n))
    (hs : ExecuteStep p j p') : Queued p' := by
  have hothers := hs.others
  have hdone : p'.destroyer ≠ .done := by
    intro hd
    rw [hothers.2.1] at hd
    exact hg.final hd (.execute j wakes hs)
  refine ⟨fun hlive => ?_, fun hd => absurd hd hdone, fun w hw => ?_, fun i => ?_, ?_⟩
  · cases hs with
    | push t hpc q hpush =>
      obtain ⟨q', xs, hpush', hrest, hsub, hrel⟩ := hq.push_some hg (by rw [hpc]; simp) t
      obtain rfl : q = q' := by simpa [hpush] using hpush'
      refine ⟨xs ++ [t], hrest, ?_, hrel⟩
      change p.submitted ++ [t] = p.taken ++ (xs ++ [t])
      rw [hsub, List.append_assoc]
    | _ => exact hq.queue hlive
  · have hmoved : Moved p (.execute j wakes) p' := .execute j wakes hs
    rcases hmoved.arrive hw (by simp) with ⟨-, hold⟩ | ⟨hexec, -⟩
    · exact hq.execSound w hold
    · cases hexec
  · by_cases hi : i = j
    · subst hi
      cases hs with
      | dangling t hpc hnone =>
        obtain ⟨q, xs, hpush, -⟩ := hq.push_some hg (by rw [hpc]; simp) t
        rw [hpush] at hnone
        cases hnone
      | _ => simp
    · rw [hothers.1 i hi]
      exact hq.executeSound i
  · rw [hothers.2.1]
    exact hq.destroySound

theorem destroy (hq : Queued p) (hs : DestroyStep p p') : Queued p' := by
  have hworkers : ∀ w, p'.workers w ≠ .fault := by
    intro w hw
    have hmoved : Moved p .destroy p' := .destroy hs
    rcases hmoved.arrive hw (by simp) with ⟨-, hold⟩ | ⟨hexec, -⟩
    · exact hq.execSound w hold
    · cases hexec
  cases hs with
  | cancel hpc | enter hpc | broadcast hpc | unlock hpc | join i hpc =>
    exact ⟨fun _ => hq.queue (by simp [hpc]), by simp, hworkers, hq.executeSound, by simp⟩
  | release i hpc hi ts heap hiter =>
    obtain ⟨xs, hrep, hsub, -⟩ := hq.queue (by simp [hpc])
    rw [hrep.iterate] at hiter
    obtain rfl := Option.some.inj hiter
    exact ⟨fun hd => absurd rfl hd, fun _ => hsub, hworkers, hq.executeSound, by simp⟩
  | dangling i hpc hi hfault =>
    obtain ⟨xs, hrep, -⟩ := hq.queue (by simp [hpc])
    rw [hrep.iterate, hrep.structFree] at hfault
    simp at hfault

theorem step (hq : Queued p) (hg : Guards p) (hs : Moved p a p') : Queued p' := by
  cases hs with
  | exec w h => exact hq.exec hg h
  | execute j wakes h => exact hq.execute hg wakes h
  | destroy h => exact hq.destroy h
  | spurious w hw =>
    refine ⟨hq.queue, hq.drained, fun v => ?_, hq.executeSound, hq.destroySound⟩
    by_cases hv : v = w
    · subst hv
      simp
    · rw [setWorker_other _ _ hv]
      exact hq.execSound v

end Queued

theorem Ledger.step (h : Ledger p) (hq : Queued p) (hg : Guards p) (hs : Moved p a p') :
    Ledger p' := by
  have hcopy : (∀ w, a ≠ .exec w) → p'.taken = p.taken → p'.started = p.started →
      p'.completed = p.completed → p'.freed = p.freed → (∀ x, p'.submitted.count x + p'.pending x =
        (List.range p'.nextTask).count x) → Ledger p' := by
    intro ha htaken hstarted hcompleted hfreed hissued
    refine ⟨hissued, fun x => ?_, fun x => ?_, fun x => ?_⟩
    · rw [htaken, hstarted, hs.held ha rfl, h.taken x]
    · rw [hstarted, hcompleted, hs.held ha rfl, h.started x]
    · rw [hcompleted, hfreed, hs.held ha rfl, h.completed x]
  cases hs with
  | exec w hw =>
    have hsub : p'.submitted = p.submitted ∧ p'.nextTask = p.nextTask := by
      cases hw <;> exact ⟨rfl, rfl⟩
    refine ⟨fun x => ?_, fun x => ?_, fun x => ?_, fun x => ?_⟩
    · rw [hsub.1, hsub.2, (Moved.exec w hw).pending (by simp), h.issued x]
    · have hheld := hw.held ExecPc.unstarted x
      have hbalance := (hw.balance x).1
      have hbefore := h.taken x
      omega
    · have hheld := hw.held ExecPc.active x
      have hbalance := (hw.balance x).2.1
      have hbefore := h.started x
      omega
    · have hheld := hw.held ExecPc.unfreed x
      have hbalance := (hw.balance x).2.2
      have hbefore := h.completed x
      omega
  | spurious w hw => exact hcopy (by simp) rfl rfl rfl rfl h.issued
  | execute j wakes hj =>
    have hissued : ∀ x, p'.submitted.count x + p'.pending x = (List.range p'.nextTask).count x := by
      refine h.execute_issued hj fun t hpc hnone => ?_
      obtain ⟨q, xs, hpush, -⟩ := hq.push_some hg (by rw [hpc]; simp) t
      rw [hpush] at hnone
      cases hnone
    cases hj <;> exact hcopy (by simp) rfl rfl rfl rfl hissued
  | destroy hd => cases hd <;> exact hcopy (by simp) rfl rfl rfl rfl h.issued

end Pool

/-- `destroy_thread_pool` has acquired the mutex for its broadcast. -/
def DestroyPc.acquired (pc : DestroyPc) : Prop := pc ≠ .idle ∧ pc ≠ .lock

/-- Each task is run once. `fault` is where a worker gets a null pointer from
`queue_pop`, or an access to the queue hits freed memory. -/
structure RunsOnce {n m : ℕ} (p : Pool n m) : Prop where
  fifo : p.taken <+: p.submitted
  once : p.started.Nodup
  sound : (∀ w, p.workers w ≠ .fault) ∧ (∀ j, p.submitters j ≠ .fault) ∧ p.destroyer ≠ .fault
  closed : p.destroyer.acquired → ∀ a p', p.step a = some p' → p'.taken = p.taken
  settled : ∀ i, p.destroyer = .join i → n ≤ i → ∃ ts, p.tasksQueue.iterate = some ts ∧
    ∀ t ∈ p.submitted, p.completed.count t + ts.count t = 1
  released : p.destroyer = .done → ∀ t ∈ p.submitted, p.completed.count t + p.released.count t = 1

namespace Pool

variable {n m : ℕ} {p : Pool n m}

theorem Queued.taken_prefix (hq : Queued p) : p.taken <+: p.submitted := by
  by_cases hd : p.destroyer = .done
  · rw [hq.drained hd]
    exact List.prefix_append _ _
  · obtain ⟨xs, -, hsub, -⟩ := hq.queue hd
    rw [hsub]
    exact List.prefix_append _ _

theorem Ledger.submitted_nodup (h : Ledger p) : p.submitted.Nodup := by
  rw [List.nodup_iff_count_le_one]
  intro x
  have hissued := h.issued x
  have honce := List.nodup_iff_count_le_one.1 (List.nodup_range (n := p.nextTask)) x
  omega

theorem Ledger.started_nodup (h : Ledger p) (hq : Queued p) : p.started.Nodup := by
  rw [List.nodup_iff_count_le_one]
  intro x
  have htaken := h.taken x
  have hsub := hq.taken_prefix.sublist.count_le x
  have honce := List.nodup_iff_count_le_one.1 h.submitted_nodup x
  omega

/-- When all workers have returned, what was taken has been completed and freed. -/
theorem Ledger.returned (h : Ledger p) (hret : ∀ w, p.workers w = .returned) (x : Task) :
    p.completed.count x = p.taken.count x ∧ p.freed.count x = p.taken.count x := by
  have hzero : ∀ f : ExecPc → List Task, f .returned = [] → p.held f x = 0 := by
    intro f hf
    unfold Pool.held
    rw [tally_eq_zero]
    intro w
    rw [hret w, hf, List.count_nil]
  have htaken := h.taken x
  have hstarted := h.started x
  have hcompleted := h.completed x
  rw [hzero _ rfl] at htaken hstarted hcompleted
  omega

/-- Then each task was completed or is in the rest of the queue, and once. -/
theorem Ledger.partition (h : Ledger p) (hret : ∀ w, p.workers w = .returned) {ts : List Task}
    (hsub : p.submitted = p.taken ++ ts) {t : Task} (ht : t ∈ p.submitted) :
    p.completed.count t + ts.count t = 1 := by
  have hone := List.count_eq_one_of_mem h.submitted_nodup ht
  rw [hsub, List.count_append] at hone
  rw [(h.returned hret t).1, hone]

theorem Guards.taken (hg : Guards p) (hd : p.destroyer.acquired) {a : PoolAction n m} {p' : Pool n m}
    (hs : Moved p a p') : p'.taken = p.taken := by
  cases hs with
  | exec w h =>
    cases h with
    | pop hpc => exact absurd hpc (hg.closed hd.1 hd.2 w).1
    | _ => rfl
  | spurious => rfl
  | execute j wakes h => cases h <;> rfl
  | destroy h => cases h <;> rfl

end Pool

theorem poolReaches_ledger {n m : ℕ} {as : List (PoolAction n m)} {p : Pool n m}
    (h : PoolReaches as p) : (p.Locked ∧ p.Guards) ∧ p.Queued ∧ p.Ledger := by
  refine h.invariant (I := fun p => (p.Locked ∧ p.Guards) ∧ p.Queued ∧ p.Ledger)
    ⟨⟨Pool.locked_init, Pool.guards_init⟩, Pool.queued_init, Pool.ledger_init⟩ ?_
  intro p a p' ⟨⟨hl, hg⟩, hq, hled⟩ hs
  have hm := Pool.step_cases hs
  exact ⟨⟨hl.step hm, hg.step hl hm⟩, hq.step hg hm, hled.step hq hg hm⟩

/-- In every run of any number of workers and submitters. -/
theorem tasks_run_once (n m : ℕ) (as : List (PoolAction n m)) (p : Pool n m)
    (h : PoolReaches as p) : RunsOnce p := by
  obtain ⟨⟨-, hg⟩, hq, hled⟩ := poolReaches_ledger h
  refine ⟨hq.taken_prefix, hled.started_nodup hq, ⟨hq.execSound, hq.executeSound, hq.destroySound⟩,
    fun hd a p' hs => hg.taken hd (Pool.step_cases hs), fun i hd hi => ?_, fun hd t ht => ?_⟩
  · obtain ⟨xs, hrep, hsub, -⟩ := hq.queue (by simp [hd])
    refine ⟨xs, hrep.iterate, fun t ht => hled.partition (fun w => ?_) hsub ht⟩
    exact hg.joined i hd w (lt_of_lt_of_le w.isLt hi)
  · exact hled.partition (hg.ended hd) (hq.drained hd) ht

/-- Two tasks are submitted to one worker; it runs the first, and the pool is destroyed
before it takes the second. -/
def poolRun : List (PoolAction 1 1) :=
  let submit := List.replicate 5 (PoolAction.execute 0 none)
  submit ++ submit ++ List.replicate 6 (.exec 0) ++ [.destroy] ++ List.replicate 6 (.exec 0) ++
    List.replicate 5 .destroy

theorem tasks_run_once_two : ∃ p, PoolReaches poolRun p ∧ p.destroyer = .done ∧
    p.completed = [0] ∧ p.released = [1] ∧ RunsOnce p := by
  have hrun : PoolReaches poolRun _ := Run.iff_foldlM.2 rfl
  exact ⟨_, hrun, rfl, rfl, rfl, tasks_run_once 1 1 poolRun _ hrun⟩

end JudgeServer
