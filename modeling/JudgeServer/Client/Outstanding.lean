import JudgeServer.Library.Run
import JudgeServer.Client.Loop

/-! The checking slot over runs of the client loop. It holds the last solution that
`process_solutions` has taken for as long as no result packet has been handled since;
so whether taking a solution overwrites another, and whether a result packet answers
the outstanding solution, are read off the order of the events. -/

namespace JudgeServer

open Transition

/-- The loop as a freshly registered client enters it. -/
def loopStart (id : UInt32) (e : Errno) : Client × Locals := (clientCreate id, ⟨.top, e⟩)

/-- `process_solutions` finds the queue empty at this step. -/
def TakesNothing (s : Client × Locals) (ev : LoopEv) : Prop :=
  ev = .process → s.1.solutionsQueue = []

/-- `sln` is the last solution taken, and no result has been handled since. -/
def LastSent (s₀ : Client × Locals) (evs : List LoopEv) (sln : Solution) : Prop :=
  ∃ pre mid s₁ s₂, evs = pre ++ .process :: mid ∧ Run loopStep s₀ pre s₁ ∧
    s₁.1.solutionsQueue.head? = some sln ∧ loopStep s₁ .process = some s₂ ∧
    LoopEv.clear ∉ mid ∧ Along loopStep s₂ mid TakesNothing

theorem take_head {s s' : Client × Locals} {sln : Solution} (h : loopStep s .process = some s')
    (hhead : s.1.solutionsQueue.head? = some sln) : s'.1.checkingSolution = some sln := by
  cases loopStep_holding h with
  | pop hqueue hslot =>
    rw [hqueue] at hhead
    obtain rfl := Option.some.inj hhead
    exact hslot
  | same _ hproc =>
    rw [hproc rfl] at hhead
    cases hhead

theorem slot_kept {s s' : Client × Locals} {ev : LoopEv} (h : loopStep s ev = some s')
    (htake : TakesNothing s ev) (hclear : ev ≠ .clear) :
    s'.1.checkingSolution = s.1.checkingSolution := by
  cases loopStep_holding h with
  | pop hqueue =>
    rw [htake rfl] at hqueue
    cases hqueue
  | clear => exact absurd rfl hclear
  | push heq => rw [heq]; rfl
  | same hsame => exact hsame.slot

theorem slot_kept_run {s s' : Client × Locals} {evs : List LoopEv} (h : Run loopStep s evs s')
    (htake : Along loopStep s evs TakesNothing) (hclear : LoopEv.clear ∉ evs) :
    s'.1.checkingSolution = s.1.checkingSolution := by
  induction h with
  | nil => rfl
  | @snoc evs ev s₁ s' hr hs ih =>
    obtain ⟨htake, hev⟩ := (along_snoc hr).1 htake
    rw [List.mem_append, not_or] at hclear
    have hne : ev ≠ .clear := fun heq => hclear.2 (by simp [heq])
    exact (slot_kept hs hev hne).trans (ih htake hclear.1)

theorem lastSent_slot {s₀ s : Client × Locals} {evs : List LoopEv} {sln : Solution}
    (hrun : Run loopStep s₀ evs s) (h : LastSent s₀ evs sln) :
    s.1.checkingSolution = some sln := by
  obtain ⟨pre, mid, s₁, s₂, rfl, hpre, hhead, hstep, hclear, htake⟩ := h
  obtain ⟨s₁', hpre', hrest⟩ := Run.append_iff.1 hrun
  obtain rfl := hpre.unique hpre'
  obtain ⟨s₂', hstep', hmid⟩ := Run.cons_iff.1 hrest
  rw [hstep] at hstep'
  obtain rfl := Option.some.inj hstep'
  exact (slot_kept_run hmid htake hclear).trans (take_head hstep hhead)

/-- The slot is the last solution taken and not answered yet. -/
theorem slot_iff_lastSent {id : UInt32} {e : Errno} {s : Client × Locals} {evs : List LoopEv}
    (hrun : Run loopStep (loopStart id e) evs s) (sln : Solution) :
    s.1.checkingSolution = some sln ↔ LastSent (loopStart id e) evs sln := by
  refine ⟨?_, lastSent_slot hrun⟩
  induction hrun with
  | nil =>
    intro h
    cases h
  | @snoc evs ev s s' hr hs ih =>
    intro h
    -- a step that neither takes a solution nor handles a result extends the history
    have extend : TakesNothing s ev → ev ≠ .clear → LastSent (loopStart id e) (evs ++ [ev]) sln := by
      intro htake hne
      rw [slot_kept hs htake hne] at h
      obtain ⟨pre, mid, s₁, s₂, rfl, hpre, hhead, hstep, hclear, halong⟩ := ih h
      have hmid : Run loopStep s₂ mid s := by
        obtain ⟨s₁', hpre', hrest⟩ := Run.append_iff.1 hr
        obtain rfl := hpre.unique hpre'
        obtain ⟨s₂', hstep', hmid⟩ := Run.cons_iff.1 hrest
        rw [hstep] at hstep'
        obtain rfl := Option.some.inj hstep'
        exact hmid
      refine ⟨pre, mid ++ [ev], s₁, s₂, by simp, hpre, hhead, hstep, ?_, ?_⟩
      · simpa [hclear] using hne.symm
      · exact (along_snoc hmid).2 ⟨halong, htake⟩
    cases loopStep_holding hs with
    | @pop c' sln' hqueue hslot =>
      rw [hslot] at h
      obtain rfl := Option.some.inj h
      refine ⟨evs, [], s, s', rfl, hr, by rw [hqueue]; rfl, hs, by simp, along_nil⟩
    | clear heq =>
      rw [heq] at h
      cases h
    | push => exact extend (fun heq => by cases heq) (fun heq => by cases heq)
    | same _ hproc hclear => exact extend hproc hclear

/-! One outstanding solution per client. -/

/-- A solution is taken only into an empty slot. -/
def TakesIntoEmpty (s : Client × Locals) (ev : LoopEv) : Prop :=
  ev = .process → s.1.solutionsQueue ≠ [] → s.1.checkingSolution = none

/-- No solution taken overwrites another, and one taken stays in the slot until a
result is handled. -/
def OneOutstanding (s₀ : Client × Locals) (evs : List LoopEv) : Prop :=
  Along loopStep s₀ evs TakesIntoEmpty ∧
    ∀ pre mid post s₁ s₂ sln, evs = pre ++ .process :: mid ++ post → Run loopStep s₀ pre s₁ →
      s₁.1.solutionsQueue.head? = some sln → Run loopStep s₁ (.process :: mid) s₂ →
      LoopEv.clear ∉ mid → s₂.1.checkingSolution = some sln

/-- Between two calls of `process_solutions` that find a queued solution, the loop
handles a result packet. -/
def AnsweredBetween (s₀ : Client × Locals) (evs : List LoopEv) : Prop :=
  ∀ pre mid post s₁ s₂, evs = pre ++ .process :: mid ++ .process :: post →
    Run loopStep s₀ pre s₁ → s₁.1.solutionsQueue ≠ [] →
    Run loopStep s₁ (.process :: mid) s₂ → s₂.1.solutionsQueue ≠ [] → LoopEv.clear ∈ mid

theorem head?_of_ne_nil {l : List Solution} (h : l ≠ []) : ∃ sln, l.head? = some sln := by
  cases l with
  | nil => exact absurd rfl h
  | cons sln l => exact ⟨sln, rfl⟩

/-- At most one solution is outstanding, over a whole run, exactly when the loop never
comes back to a non-empty queue before a result. -/
theorem one_outstanding_iff (id : UInt32) (e : Errno) (evs : List LoopEv) :
    OneOutstanding (loopStart id e) evs ↔ AnsweredBetween (loopStart id e) evs := by
  refine ⟨?_, fun hans => ⟨?_, ?_⟩⟩
  · intro ⟨hempty, hstays⟩ pre mid post s₁ s₂ hevs hpre hq₁ hmid hq₂
    by_contra hclear
    obtain ⟨sln, hhead⟩ := head?_of_ne_nil hq₁
    have hslot := hstays pre mid (.process :: post) s₁ s₂ sln hevs hpre hhead hmid hclear
    have hnone := hempty (pre ++ .process :: mid) .process post s₂ hevs (hpre.trans hmid) rfl hq₂
    rw [hslot] at hnone
    cases hnone
  · intro pre ev post s₂ hevs hpre hev hq
    subst hev
    by_contra hslot
    obtain ⟨sln, hsln⟩ := Option.ne_none_iff_exists'.1 hslot
    obtain ⟨p, mid, s₁, s', rfl, hp, hhead, hstep, hclear, -⟩ :=
      (slot_iff_lastSent hpre sln).1 hsln
    obtain ⟨t, hp', hmid⟩ := Run.append_iff.1 hpre
    obtain rfl := hp.unique hp'
    have hq₁ : s₁.1.solutionsQueue ≠ [] := by
      intro hnil
      rw [hnil] at hhead
      cases hhead
    exact hclear (hans p mid post s₁ s₂ hevs hp hq₁ hmid hq)
  · intro pre mid post s₁ s₂ sln hevs hpre hhead hmid hclear
    obtain ⟨s', hstep, hrest⟩ := Run.cons_iff.1 hmid
    have hq₁ : s₁.1.solutionsQueue ≠ [] := by
      intro hnil
      rw [hnil] at hhead
      cases hhead
    have htake : Along loopStep s' mid TakesNothing := by
      intro m ev m' t hm hrun' hev
      subst hev
      by_contra hq
      have hmem := hans pre m (m' ++ post) s₁ t (by simp [hevs, hm]) hpre hq₁
        (Run.cons_iff.2 ⟨s', hstep, hrun'⟩) hq
      exact hclear (by simp [hm, hmem])
    exact (slot_kept_run hrest htake hclear).trans (take_head hstep hhead)

/-- A solution with source `a`, for compiler 5. -/
def sampleSolution (addr : ℕ) (id : UInt32) : Solution :=
  ⟨addr, id, 1, 1, [0x61, 0], 2, 5, 0, false, [], 0⟩

/-- Two solutions are queued, the first is sent, a receive timeout follows. -/
def timeoutEvents : List LoopEv :=
  [.push (sampleSolution 0 1), .push (sampleSolution 1 2), .running true, .process,
    .send [.moved 17], .recvLen [.failed .EAGAIN], .running true]

/-- The next call of `process_solutions` overwrites the first solution, which then is
neither in the slot nor in the queue. -/
theorem timeout_overwrites :
    (∃ s, Run loopStep (loopStart 1 (.other 0)) (timeoutEvents ++ [.process]) s ∧
      s.1.checkingSolution = some (sampleSolution 1 2) ∧ s.1.solutionsQueue = []) ∧
    ¬ OneOutstanding (loopStart 1 (.other 0)) (timeoutEvents ++ [.process]) := by
  refine ⟨⟨_, Run.iff_foldlM.2 rfl, rfl, rfl⟩, fun h => ?_⟩
  have hnone := h.1 timeoutEvents .process [] _ rfl (Run.iff_foldlM.2 rfl) rfl
    (List.cons_ne_nil _ _)
  cases hnone

/-! Result packets. -/

/-- The result posted at this step is for the outstanding solution. -/
def PostsOutstanding (s : Client × Locals) (ev : LoopEv) : Prop :=
  ∀ id code test ok, ev = .post ok → s.2.pc = .posting id code test →
    ∃ sln, s.1.checkingSolution = some sln ∧ sln.id = id

/-- Every result packet names the last solution sent, and none has been handled since
that solution was sent. -/
def AnswersLast (s₀ : Client × Locals) (evs : List LoopEv) : Prop :=
  ∀ pre ok post s id code test, evs = pre ++ .post ok :: post → Run loopStep s₀ pre s →
    s.2.pc = .posting id code test → ∃ sln, LastSent s₀ pre sln ∧ sln.id = id

/-- Over a whole run the client is the judge of its outstanding solution only, exactly
when every result packet it sends answers the last solution sent to it. -/
theorem posts_outstanding_iff (id : UInt32) (e : Errno) (evs : List LoopEv) :
    Along loopStep (loopStart id e) evs PostsOutstanding ↔ AnswersLast (loopStart id e) evs := by
  refine ⟨?_, ?_⟩
  · intro h pre ok post t id code test hevs hpre hpc
    obtain ⟨sln, hslot, hid⟩ := h pre (.post ok) post t hevs hpre id code test ok rfl hpc
    exact ⟨sln, (slot_iff_lastSent hpre sln).1 hslot, hid⟩
  · intro h pre ev post t hevs hpre id code test ok hev hpc
    subst hev
    obtain ⟨sln, hlast, hid⟩ := h pre ok post t id code test hevs hpre hpc
    exact ⟨sln, (slot_iff_lastSent hpre sln).2 hlast, hid⟩

/-- A client without an outstanding solution answers solution 7. -/
def unaskedEvents : List LoopEv :=
  [.running true, .process, .recvLen [.data [0, 7]],
    .recvBody [.data [109, 0, 0, 0, 7, 0, 1]] []]

theorem unasked_result_posted :
    (∃ s, Run loopStep (loopStart 1 (.other 0)) unaskedEvents s ∧
      s.2.pc = .posting 7 0 1 ∧ s.1.checkingSolution = none) ∧
    ¬ Along loopStep (loopStart 1 (.other 0)) (unaskedEvents ++ [.post true]) PostsOutstanding := by
  refine ⟨⟨_, Run.iff_foldlM.2 rfl, rfl, rfl⟩, fun h => ?_⟩
  obtain ⟨sln, hslot, -⟩ := h unaskedEvents (.post true) [] _ rfl (Run.iff_foldlM.2 rfl) 7 0 1 true
    rfl rfl
  cases hslot

end JudgeServer
