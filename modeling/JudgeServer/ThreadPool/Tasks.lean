import JudgeServer.ThreadPool.Once

/-! The memory of the tasks. A task belongs to the thread that submits it, then to the
queue, then to the worker that has taken it; the worker frees it, or
`destroy_thread_pool` does when it is still in the queue. -/

namespace JudgeServer

open Transition Tally

/-- The task that a worker has taken and may still access. -/
def ExecPc.owned (pc : ExecPc) : List Task := pc.unstarted ++ (pc.active ++ pc.unfreed)

/-- No task is freed twice, none is accessed after it is freed, two threads or a thread and
the queue never have the same one, and none is left over. -/
structure TasksOwned {n m : ℕ} (p : Pool n m) : Prop where
  freedOnce : (p.freed ++ p.released).Nodup
  executing : ∀ w, ∀ t ∈ (p.workers w).owned,
    t ∉ p.freed ++ p.released ∧ ∀ v, t ∈ (p.workers v).owned → v = w
  submitting : ∀ j, ∀ t ∈ (p.submitters j).unsubmitted,
    t ∉ p.freed ++ p.released ∧ (∀ w, t ∉ (p.workers w).owned) ∧
      ∀ i, t ∈ (p.submitters i).unsubmitted → i = j
  waiting : p.destroyer ≠ .done → p.released = [] ∧
    ∃ ts, p.tasksQueue.Represents ts ∧ ts.Nodup ∧
      ∀ t ∈ ts, t ∉ p.freed ∧ (∀ w, t ∉ (p.workers w).owned) ∧
        ∀ j, t ∉ (p.submitters j).unsubmitted
  unleaked : p.destroyer = .done → (∀ t, t ∈ p.freed ++ p.released ↔ t < p.nextTask) ∧
    ∀ a, p.step a = none

namespace Pool

variable {n m : ℕ} {p : Pool n m}

/-- What has been taken is with a worker or freed. -/
theorem Ledger.owned (h : Ledger p) (x : Task) :
    p.taken.count x = p.held ExecPc.owned x + p.freed.count x := by
  have hsplit : p.held ExecPc.owned x =
      p.held ExecPc.unstarted x + (p.held ExecPc.active x + p.held ExecPc.unfreed x) := by
    unfold Pool.held
    rw [← tally_add, ← tally_add]
    simp only [ExecPc.owned, List.count_append]
  have htaken := h.taken x
  have hstarted := h.started x
  have hcompleted := h.completed x
  omega

/-- What has been submitted and not taken: the rest of the queue, before and after its
release. -/
theorem Queued.rest (hq : Queued p) : ∃ ts, p.submitted = p.taken ++ ts ∧
    (p.destroyer ≠ .done → p.tasksQueue.Represents ts ∧ p.released = []) ∧
      (p.destroyer = .done → p.released = ts) := by
  by_cases hd : p.destroyer = .done
  · exact ⟨p.released, hq.drained hd, fun h => absurd hd h, fun _ => rfl⟩
  · obtain ⟨ts, hrep, hsub, hrel⟩ := hq.queue hd
    exact ⟨ts, hsub, fun _ => ⟨hrep, hrel⟩, fun h => absurd h hd⟩

/-- Each task that has been allocated is in one of four places. -/
theorem Ledger.places (h : Ledger p) {ts : List Task} (hsub : p.submitted = p.taken ++ ts)
    (x : Task) : p.pending x + p.held ExecPc.owned x + p.freed.count x + ts.count x =
      (List.range p.nextTask).count x := by
  have hissued := h.issued x
  have howned := h.owned x
  rw [hsub, List.count_append] at hissued
  omega

theorem Ledger.places_le (h : Ledger p) {ts : List Task} (hsub : p.submitted = p.taken ++ ts)
    (x : Task) : p.pending x + p.held ExecPc.owned x + p.freed.count x + ts.count x ≤ 1 := by
  rw [h.places hsub x]
  exact List.nodup_iff_count_le_one.1 List.nodup_range x

theorem held_pos {w : Fin n} {t : Task} (h : t ∈ (p.workers w).owned) :
    0 < p.held ExecPc.owned t :=
  lt_of_lt_of_le (List.count_pos_iff.2 h) (le_tally (fun pc : ExecPc => pc.owned.count t) _ w)

theorem pending_pos {j : Fin m} {t : Task} (h : t ∈ (p.submitters j).unsubmitted) :
    0 < p.pending t :=
  lt_of_lt_of_le (List.count_pos_iff.2 h)
    (le_tally (fun pc : ExecutePc => pc.unsubmitted.count t) _ j)

end Pool

/-- In every run of any number of workers and submitters. -/
theorem tasks_owned (n m : ℕ) (as : List (PoolAction n m)) (p : Pool n m)
    (h : PoolReaches as p) : TasksOwned p := by
  obtain ⟨⟨-, hg⟩, hq, hled⟩ := poolReaches_ledger h
  obtain ⟨ts, hsub, hlive, hdone⟩ := hq.rest
  have hle := hled.places_le hsub
  have hreleased : ∀ x, p.released.count x ≤ ts.count x := by
    intro x
    by_cases hd : p.destroyer = .done
    · rw [hdone hd]
    · rw [(hlive hd).2, List.count_nil]
      exact Nat.zero_le _
  -- a task with another owner has not been freed
  have hunfreed : ∀ x, 0 < p.pending x + p.held ExecPc.owned x → x ∉ p.freed ++ p.released := by
    intro x hpos hmem
    have hcount := List.count_pos_iff.2 hmem
    have hx := hle x
    have hr := hreleased x
    rw [List.count_append] at hcount
    omega
  have hunheld : ∀ x, 0 < p.pending x + p.freed.count x + ts.count x →
      ∀ w, x ∉ (p.workers w).owned := by
    intro x hpos w hw
    have hheld := Pool.held_pos hw
    have hx := hle x
    omega
  refine ⟨?_, fun w t ht => ⟨?_, fun v hv => ?_⟩, fun j t ht => ⟨?_, ?_, fun i hi => ?_⟩,
    fun hd => ?_, fun hd => ?_⟩
  · rw [List.nodup_iff_count_le_one]
    intro x
    have hx := hle x
    have hr := hreleased x
    rw [List.count_append]
    omega
  · exact hunfreed t (Nat.add_pos_right _ (Pool.held_pos ht))
  · by_contra hne
    have hpair : _ ≤ p.held ExecPc.owned t :=
      pair_le_tally (fun pc : ExecPc => pc.owned.count t) p.workers hne
    have hv' := List.count_pos_iff.2 hv
    have hw' := List.count_pos_iff.2 ht
    have hx := hle t
    omega
  · exact hunfreed t (Nat.add_pos_left (Pool.pending_pos ht) _)
  · exact hunheld t (by have := Pool.pending_pos ht; omega)
  · by_contra hne
    have hpair : _ ≤ p.pending t :=
      pair_le_tally (fun pc : ExecutePc => pc.unsubmitted.count t) p.submitters hne
    have hi' := List.count_pos_iff.2 hi
    have hj' := List.count_pos_iff.2 ht
    have hx := hle t
    omega
  · refine ⟨(hlive hd).2, ts, (hlive hd).1, ?_, fun t ht => ⟨?_, ?_, fun j hj => ?_⟩⟩
    · rw [List.nodup_iff_count_le_one]
      intro x
      have hx := hle x
      omega
    · intro hfreed
      have hx := hle t
      have hwaiting := List.count_pos_iff.2 ht
      have hpos := List.count_pos_iff.2 hfreed
      omega
    · exact hunheld t (Nat.add_pos_right _ (List.count_pos_iff.2 ht))
    · have hpending := Pool.pending_pos hj
      have hwaiting := List.count_pos_iff.2 ht
      have hx := hle t
      omega
  · refine ⟨fun t => ?_, fun a => ?_⟩
    · -- all workers have returned and no submission is under way
      have hpending : p.pending t = 0 := by
        unfold Pool.pending
        rw [tally_eq_zero]
        intro j
        rw [(hg.last (by simp [hd])).2 j]
        rfl
      have hheld : p.held ExecPc.owned t = 0 := by
        unfold Pool.held
        rw [tally_eq_zero]
        intro w
        rw [hg.ended hd w]
        rfl
      have hplaces := hled.places hsub t
      rw [hpending, hheld, ← hdone hd, Nat.zero_add, ← List.count_append] at hplaces
      rw [← List.count_pos_iff, hplaces, List.count_pos_iff, List.mem_range]
    · rw [Option.eq_none_iff_forall_ne_some]
      intro p' hs
      exact hg.final hd (Pool.step_cases hs)

/-- The first task was freed by its worker, the second with the queue. -/
theorem tasks_owned_two : ∃ p, PoolReaches poolRun p ∧ p.freed = [0] ∧ p.released = [1] ∧
    TasksOwned p := by
  have hrun : PoolReaches poolRun _ := Run.iff_foldlM.2 rfl
  exact ⟨_, hrun, rfl, rfl, tasks_owned 1 1 poolRun _ hrun⟩

end JudgeServer
