import JudgeServer.Server.Waiting

/-! What is left to do when `server_running` has been cleared. Each thread has only so many
sections before it tests the flag or returns, and a removal has to pass on only what its
client held; the loop of `process_solutions` around `send_all` is the one that may go on. Nobody
is kept from going on by a mutex for ever, so where every thread gets its turns all others come
to their end. -/

namespace JudgeServer

open Transition

/-- How far a loop is from its next test of the flag; a removal comes between. -/
def LoopPc.stage : LoopPc → ℕ
  | .process => 13
  | .sending _ => 12
  | .recvLen => 11
  | .removing => 10
  | .recvBody _ => 4
  | .posting _ _ _ => 3
  | .clearing => 2
  | .top => 1
  | .ended | .fault => 0

def RemovePc.stage : RemovePc → ℕ
  | .lists => 9
  | .map => 8
  | .lock => 7
  | .slot => 6
  | .drain => 5
  | .free => 1

def WorkerPc.stage : WorkerPc → ℕ
  | .register _ => 3
  | .announce _ _ => 2
  | .loop _ l => l.pc.stage
  | .remove _ _ pc => pc.stage
  | .idle | .done => 0

def PollPc.stage : PollPc → ℕ
  | .init => 8
  | .sleep => 7
  | .extract .select => 6
  | .extract (.start _) => 5
  | .extract _ => 4
  | .dispatch _ => 3
  | .top => 2
  | .close => 1
  | .done => 0

/-- What is left to do at this stage. -/
def PollPc.load : PollPc → ℕ
  | .extract (.updates _ todo) => todo.length + 2
  | .extract (.rollback _) => 1
  | .dispatch rest => 4 * rest.length
  | _ => 0

def PushPc.left : PushPc → ℕ
  | .lookup => 3
  | .choose _ => 2
  | .noCompiler | .append _ => 1

namespace Server

def stage (s : Server) : Who → ℕ
  | .poll => s.poll.stage
  | .worker t => (s.workers t).stage

/-- The steps left in a call of `push_solution`. -/
def callLeft (s : Server) (who : Who) : ℕ := ((s.calls who).map fun call => call.pc.left).getD 0

/-- The steps left in the calls that a removal still has to make for the queue. -/
def drainLeft (s : Server) (t : Tid) : ℕ :=
  ((s.workers t).inside.map fun c => 4 * (s.clients c).solutionsQueue.length).getD 0

def load (s : Server) : Who → ℕ
  | .poll => s.poll.load + s.callLeft .poll
  | .worker t => s.drainLeft t + s.callLeft (.worker t)

/-- A step that does not bring a thread nearer to its end: it comes from outside, or it is
a round of the send loop that is followed by another one. -/
def idles (s : Server) : Action → Bool
  | .stop | .submit _ => true
  | .loop _ _ _ (.errno _) => true
  | .loop _ me l (.send calls) =>
    (loopStep (s.clients me, l) (.send calls)).any fun r => r.2.pc.stage = l.pc.stage
  | _ => false

/-- No new connection. -/
def closed (_ : Server) : Action → Prop
  | .accept _ _ => False
  | _ => True

variable {s s' : Server} {a : Action}

theorem poll_other (hs : s.step a = some s') (ha : a.actor ≠ some .poll) : s'.poll = s.poll := by
  obtain ⟨hen, rfl⟩ := step_some.1 hs
  cases a with
  | loop t me l ev =>
    obtain ⟨c, l', -, heq⟩ := next_loop hen
    rw [heq]
    exact s.postEffect_poll l ev
  | submit | find | lock | lookup | choose =>
    simp only [next]
    split <;> rfl
  | initDb | check | lockDb | query | dispatch | again | closeDb => exact absurd rfl ha
  | _ => rfl

theorem stage_other (hs : s.step a = some s') (hc : s.closed a) {u : Who}
    (hu : a.actor ≠ some u) : s'.stage u = s.stage u := by
  cases u with
  | poll => simp only [stage, poll_other hs hu]
  | worker t =>
    have ht : thread a ≠ some t := by
      intro ht
      cases a with
      | accept => exact hc
      | _ => first | exact hu (congrArg (Option.map Who.worker) ht) | cases ht
    simp only [stage, workers_other hs ht]

/-- The thread goes on to a later stage, or has less to do at this one, and nobody else has
more to do. -/
inductive Progress (s s' : Server) (w : Who) : Prop
  | stage (hlt : s'.stage w < s.stage w) : Progress s s' w
  | load (hstage : s'.stage w = s.stage w) (hlt : s'.load w < s.load w)
      (hothers : ∀ u ≠ w, s'.load u = s.load u) : Progress s s' w

/-- The steps within a call. -/
theorem call_progress {who : Who} {call : PushCall} (hcall : s.calls who = some call)
    (hworkers : s'.workers = s.workers) (hpoll : s'.poll = s.poll)
    (hqueues : ∀ t c, (s.workers t).inside = some c →
      (s'.clients c).solutionsQueue = (s.clients c).solutionsQueue)
    (hcalls : ∀ w ≠ who, s'.calls w = s.calls w) (hleft : s'.callLeft who < call.pc.left) :
    Progress s s' who := by
  have hdrain : ∀ t, s'.drainLeft t = s.drainLeft t := by
    intro t
    unfold drainLeft
    rw [hworkers]
    cases hin : (s.workers t).inside with
    | none => rfl
    | some c => simp only [Option.map_some, hqueues t c hin]
  have hold : s.callLeft who = call.pc.left := by simp [callLeft, hcall]
  refine .load ?_ ?_ fun u hu => ?_
  · cases who <;> simp only [stage, hworkers, hpoll]
  · cases who <;> simp only [load, hdrain, hpoll, hold] <;> omega
  · have hsame : s'.callLeft u = s.callLeft u := by simp only [callLeft, hcalls u hu]
    cases u <;> simp only [load, hdrain, hpoll, hsame]

theorem afterSend_stage (c : Client) (e : Errno) (sln : Solution) (t : Transfer) :
    (afterSend c ⟨.sending sln, e⟩ sln t).2.pc.stage ≤ (LoopPc.sending sln).stage := by
  simp only [afterSend]
  split
  · exact le_rfl
  · split_ifs <;> simp [LoopPc.stage]

theorem afterRecvLen_stage (c : Client) (l : Locals) (bytes : List UInt8) (t : Transfer) :
    (afterRecvLen c l bytes t).2.pc.stage < LoopPc.recvLen.stage := by
  simp only [afterRecvLen]
  split_ifs <;> simp [LoopPc.stage]

theorem afterRecvBody_stage (c : Client) (l : Locals) (n : UInt16) (pkt beyond : List UInt8)
    (t : Transfer) : (afterRecvBody c l n pkt beyond t).2.pc.stage < (LoopPc.recvBody n).stage := by
  simp only [afterRecvBody]
  split_ifs
  · simp [LoopPc.stage]
  · simp only [decodePacket]
    split_ifs <;> simp [LoopPc.stage]

/-- A step of the loop brings its thread on, or it is a failed send that is repeated. -/
theorem loop_stage {x y : Client × Locals} {ev : LoopEv} (h : loopStep x ev = some y)
    (hpush : ∀ sln, ev ≠ .push sln) (hrun : ev ≠ .running true) :
    y.2.pc.stage < x.2.pc.stage ∨ y.2.pc.stage = x.2.pc.stage ∧
      y.1.solutionsQueue = x.1.solutionsQueue ∧ ((∃ e, ev = .errno e) ∨ ∃ calls, ev = .send calls) := by
  obtain ⟨c, l⟩ := x
  cases loopStep_rule h with
  | push => exact absurd rfl (hpush _)
  | errno => exact Or.inr ⟨rfl, rfl, Or.inl ⟨_, rfl⟩⟩
  | @running e b =>
    cases b with
    | true => exact absurd rfl hrun
    | false => exact Or.inl (by simp [LoopPc.stage])
  | idle | pop | post | clear => exact Or.inl (by simp [LoopPc.stage])
  | @send e sln calls t hsend =>
    rcases (afterSend_stage c e sln t).lt_or_eq with hlt | heq
    · exact Or.inl hlt
    · exact Or.inr ⟨heq, (afterSend_same c _ sln t).queue, Or.inr ⟨calls, rfl⟩⟩
  | recvLen hrecv => exact Or.inl (afterRecvLen_stage ..)
  | recvBody hrecv => exact Or.inl (afterRecvBody_stage ..)

/-- The load depends on the queues of the clients that are being drained. -/
theorem load_congr {u : Who} (hpoll : s'.poll = s.poll) (hcalls : s'.calls = s.calls)
    (hinside : ∀ t, (s'.workers t).inside = (s.workers t).inside)
    (hqueue : ∀ c, (s'.clients c).solutionsQueue = (s.clients c).solutionsQueue) :
    s'.load u = s.load u := by
  cases u <;> simp only [load, drainLeft, callLeft, hpoll, hcalls, hinside, hqueue]

/-- What an idle step leaves as it is. -/
theorem idle_step (hs : s.step a = some s') (hidle : s.idles a = true) (u : Who) :
    s'.stage u = s.stage u ∧ s'.load u = s.load u := by
  obtain ⟨hen, rfl⟩ := step_some.1 hs
  cases a with
  | stop => cases u <;> exact ⟨rfl, rfl⟩
  | submit row =>
    simp only [next]
    split <;> cases u <;> exact ⟨rfl, rfl⟩
  | loop t me l ev =>
    obtain ⟨c, l', hstep, heq⟩ := next_loop hen
    obtain ⟨hstage, hqueue⟩ : l'.pc.stage = l.pc.stage ∧
        c.solutionsQueue = (s.clients me).solutionsQueue := by
      cases ev with
      | errno e =>
        cases loopStep_rule hstep
        exact ⟨rfl, rfl⟩
      | send calls =>
        have hsame : l'.pc.stage = l.pc.stage := by simpa [idles, hstep] using hidle
        have hrest := loop_stage hstep (by simp) (by simp)
        exact ⟨hsame, (hrest.resolve_left (by simp [hsame])).2.1⟩
      | _ => cases hidle
    rw [heq]
    have hworker : ∀ v, v ≠ t → (((s.postEffect l ev).setClient me c).setWorker t
        (.loop me l')).workers v = s.workers v := by
      intro v hv
      rw [setWorker_other _ _ hv]
      exact congrFun (s.postEffect_workers l ev) v
    refine ⟨?_, load_congr (s.postEffect_poll l ev) (s.postEffect_calls l ev) (fun v => ?_)
      fun d => ?_⟩
    · cases u with
      | poll => exact congrArg PollPc.stage (s.postEffect_poll l ev)
      | worker v =>
        by_cases hv : v = t
        · subst hv
          simp only [stage, setWorker_same, hen.1, WorkerPc.stage, hstage]
        · simp only [stage, hworker v hv]
    · by_cases hv : v = t
      · subst hv
        simp only [setWorker_same, hen.1, WorkerPc.inside]
      · rw [hworker v hv]
    · change (((s.postEffect l ev).setClient me c).clients d).solutionsQueue = _
      by_cases hd : d = me
      · subst hd
        rw [setClient_same, hqueue]
      · rw [setClient_other _ _ hd, postEffect_clients]
  | _ => cases hidle

theorem ret_stage (s : Server) (code : ℤ) (rows : List Row) :
    (s.afterQuery (.ret code rows)).poll.stage ≤ 3 := by
  simp only [afterQuery]
  split_ifs <;> simp [PollPc.stage]

/-- A query of the extraction. -/
theorem query_progress {e : ExtractPc} {ok : Bool} (hs : s.step (.query e ok) = some s') :
    Progress s s' .poll := by
  obtain ⟨hen, rfl⟩ := step_some.1 hs
  obtain ⟨stmt, hstmt, heq⟩ := next_query hen
  have hpoll : s.poll = .extract e := hen.1
  have hret : ∀ {code rows}, 3 < s.poll.stage → e.next (ok && s.conn = .open) (s.query stmt ok).db =
      .ret code rows → Progress s (s.next (.query e ok)) .poll := by
    intro code rows hstage hnext
    refine .stage (lt_of_le_of_lt ?_ hstage)
    rw [heq, hnext]
    exact ret_stage _ code rows
  have hstay : ∀ {e'}, e.next (ok && s.conn = .open) (s.query stmt ok).db = e' →
      (∀ code rows, e' ≠ .ret code rows) → (PollPc.extract e').stage = s.poll.stage →
      (PollPc.extract e').load < s.poll.load → Progress s (s.next (.query e ok)) .poll := by
    intro e' hnext hend hstage hload
    have hat : (s.next (.query e ok)).poll = .extract e' := by
      rw [heq, hnext]
      cases e' <;> first | rfl | exact absurd rfl (hend _ _)
    have hcalls : (s.next (.query e ok)).calls = s.calls := by
      rw [heq, afterQuery_calls]
      rfl
    refine .load (by simp only [stage, hat, hstage]) ?_ fun u hu => ?_
    · simp only [load, hat, callLeft, hcalls]
      omega
    · cases u with
      | poll => exact absurd rfl hu
      | worker t =>
        have hworkers : (s.next (.query e ok)).workers = s.workers := by
          rw [heq, afterQuery_workers]
          rfl
        have hclients : (s.next (.query e ok)).clients = s.clients := by
          rw [heq, afterQuery_clients]
          rfl
        simp only [load, drainLeft, callLeft, hworkers, hclients, hcalls]
  cases e with
  | ret code rows => cases hstmt
  | select =>
    simp only [ExtractPc.next] at hret heq
    split_ifs at hret heq with h1 h2 h3
    · exact hret (by simp [hpoll, PollPc.stage]) rfl
    · exact hret (by simp [hpoll, PollPc.stage]) rfl
    · exact hret (by simp [hpoll, PollPc.stage]) rfl
    · refine .stage ?_
      rw [heq]
      simp [stage, afterQuery, hpoll, PollPc.stage]
  | start rows =>
    simp only [ExtractPc.next] at hret heq
    split_ifs at hret heq with hok
    · refine .stage ?_
      rw [heq]
      simp [stage, afterQuery, hpoll, PollPc.stage]
    · exact hret (by simp [hpoll, PollPc.stage]) rfl
  | rollback rows => exact hret (by simp [hpoll, PollPc.stage]) rfl
  | updates rows todo =>
    cases todo with
    | nil => exact hret (by simp [hpoll, PollPc.stage]) rfl
    | cons row todo =>
      by_cases hok : (ok && s.conn = .open) = true
      · exact hstay (if_pos hok) (by simp) (by simp [hpoll, PollPc.stage])
          (by simp [hpoll, PollPc.load])
      · exact hstay (if_neg hok) (by simp) (by simp [hpoll, PollPc.stage])
          (by simp [hpoll, PollPc.load])

/-- The end of a call. -/
theorem callLeft_none {who : Who} (h : s.calls who = none) : s.callLeft who = 0 := by
  simp [callLeft, h]

/-- A removal takes a solution out of the queue and passes it on. -/
theorem pop_progress (hg : Guarded s) {t : Tid} {me c : ClientRef} {sln : Solution}
    {rest : List Solution} (hs : s.step (.pop t me c sln rest) = some s') :
    Progress s s' (.worker t) := by
  obtain ⟨⟨hpc, hcall, hqueue⟩, rfl⟩ := step_some.1 hs
  have hin : (s.workers t).inside = some c := by rw [hpc]; rfl
  have hold : s.load (.worker t) = 4 * (rest.length + 1) := by
    simp [load, drainLeft, hin, hqueue, callLeft_none hcall]
  have hnew : (s.next (.pop t me c sln rest)).load (.worker t) = 4 * rest.length + 3 := by
    simp [load, drainLeft, callLeft, next, setCall, setClient, hpc, WorkerPc.inside, PushPc.left]
  refine .load rfl (by rw [hold, hnew]; omega) fun u hu => ?_
  cases u with
  | poll => rfl
  | worker v =>
    have hcalls : (s.next (.pop t me c sln rest)).calls (.worker v) = s.calls (.worker v) :=
      setCall_other _ _ hu
    simp only [load, callLeft, hcalls, drainLeft]
    change ((s.workers v).inside.map _).getD 0 + _ = _
    cases hd : (s.workers v).inside with
    | none => rfl
    | some d =>
      -- two threads are never inside of one client
      have hdc : d ≠ c := by
        rintro rfl
        exact hu (congrArg Who.worker (hg.one v t d hd hin))
      have hsame : (s.next (.pop t me c sln rest)).clients d = s.clients d := setClient_other _ _ hdc
      simp only [Option.map_some, hsame]

theorem dispatch_progress {sln : Solution} {rest : List Solution}
    (hs : s.step (.dispatch sln rest) = some s') : Progress s s' .poll := by
  obtain ⟨⟨hpoll, hcall⟩, rfl⟩ := step_some.1 hs
  have hold : s.load .poll = 4 * (rest.length + 1) := by
    simp [load, hpoll, PollPc.load, callLeft_none hcall]
  have hnew : (s.next (.dispatch sln rest)).load .poll = 4 * rest.length + 3 := by
    simp [load, callLeft, next, setCall, PollPc.load, PushPc.left]
  refine .load (by simp [stage, next, setCall, hpoll, PollPc.stage]) (by rw [hold, hnew]; omega)
    fun u hu => ?_
  cases u with
  | poll => exact absurd rfl hu
  | worker v =>
    have hcalls : (s.next (.dispatch sln rest)).calls (.worker v) = s.calls (.worker v) :=
      setCall_other _ _ hu
    simp only [load, callLeft, hcalls]
    rfl

/-- In a stopped server every step of a thread brings it on or is idle. -/
theorem actor_step (hg : Guarded s) (hrun : s.serverRunning = false) (hs : s.step a = some s')
    (hidle : s.idles a = false) {w : Who} (hw : a.actor = some w) : Progress s s' w := by
  obtain ⟨hen, rfl⟩ := step_some.1 hs
  cases a with
  | accept | stop | submit => cases hw
  | register t compilers =>
    obtain rfl := Option.some.inj hw
    exact .stage (by simp [stage, next, show s.workers t = _ from hen, WorkerPc.stage])
  | announce t me compilers =>
    obtain rfl := Option.some.inj hw
    exact .stage (by simp [stage, next, show s.workers t = _ from hen, WorkerPc.stage, LoopPc.stage])
  | unlist t me c | unmap t me c =>
    obtain rfl := Option.some.inj hw
    exact .stage (by simp [stage, next, show s.workers t = _ from hen, WorkerPc.stage, RemovePc.stage])
  | find t me errno =>
    obtain rfl := Option.some.inj hw
    refine .stage ?_
    simp only [stage, next, show s.workers t = _ from hen]
    split <;> simp [WorkerPc.stage, LoopPc.stage, RemovePc.stage]
  | loop t me l ev =>
    obtain rfl := Option.some.inj hw
    obtain ⟨c, l', hstep, heq⟩ := next_loop hen
    obtain ⟨hpc, hadmits, -⟩ := hen
    rcases loop_stage hstep (by rintro sln rfl; cases hadmits)
      (by rintro rfl; simp [admits, hrun] at hadmits) with hlt | ⟨hsame, -, ⟨e, rfl⟩ | ⟨calls, rfl⟩⟩
    · refine .stage ?_
      rw [heq]
      simpa only [stage, setWorker_same, hpc, WorkerPc.stage] using hlt
    · cases hidle
    · simp [idles, hstep, hsame] at hidle
  | lock t me c =>
    obtain rfl := Option.some.inj hw
    refine .stage ?_
    simp only [stage, next, show s.workers t = _ from hen.1]
    split <;> simp [setClient, setWorker, setCall, WorkerPc.stage, RemovePc.stage]
  | unslot t me c =>
    obtain rfl := Option.some.inj hw
    exact .stage (by simp [stage, next, show s.workers t = _ from hen.1, WorkerPc.stage, RemovePc.stage])
  | finish t me c =>
    obtain rfl := Option.some.inj hw
    exact .stage (by simp [stage, next, show s.workers t = _ from hen.1, WorkerPc.stage, RemovePc.stage])
  | free t me c =>
    obtain rfl := Option.some.inj hw
    exact .stage (by simp [stage, next, show s.workers t = _ from hen, WorkerPc.stage, RemovePc.stage])
  | pop t me c sln rest =>
    obtain rfl := Option.some.inj hw
    exact pop_progress hg hs
  | lookup who sln =>
    obtain rfl := Option.some.inj hw
    have hcall : s.calls who = some ⟨sln, .lookup⟩ := hen
    simp only [next]
    split
    · refine call_progress hcall rfl rfl (fun _ _ _ => rfl) (fun v hv => setCall_other _ _ hv) ?_
      simp [callLeft, PushPc.left]
    · refine call_progress hcall rfl rfl (fun _ _ _ => rfl) (fun v hv => setCall_other _ _ hv) ?_
      simp [callLeft, PushPc.left]
  | noCompiler who sln ok =>
    obtain rfl := Option.some.inj hw
    refine call_progress (show s.calls who = _ from hen) rfl rfl (fun _ _ _ => rfl)
      (fun v hv => setCall_other _ _ hv) ?_
    have hnone : (s.next (.noCompiler who sln ok)).calls who = none := setCall_same ..
    rw [callLeft_none hnone]
    simp [PushPc.left]
  | choose who sln k ok =>
    obtain rfl := Option.some.inj hw
    have hcall : s.calls who = some ⟨sln, .choose k⟩ := hen
    simp only [next]
    split
    · refine call_progress hcall rfl rfl (fun _ _ _ => rfl) (fun v hv => setCall_other _ _ hv) ?_
      simp [callLeft, PushPc.left]
    · refine call_progress hcall rfl rfl (fun _ _ _ => rfl) (fun v hv => setCall_other _ _ hv) ?_
      rw [callLeft_none (setCall_same ..)]
      simp [PushPc.left]
  | append who sln c =>
    obtain rfl := Option.some.inj hw
    refine call_progress hen.1 rfl rfl (fun t d hin => ?_) (fun v hv => setCall_other _ _ hv) ?_
    · -- nobody drains the client, since its mutex is free
      have hd : d ≠ c := by
        rintro rfl
        have hlocked := (hg.locked_iff d).2 ⟨t, hin⟩
        rw [hen.2] at hlocked
        cases hlocked
      change ((s.setClient c _).clients d).solutionsQueue = _
      rw [setClient_other _ _ hd]
    · have hnone : (s.next (.append who sln c)).calls who = none := setCall_same ..
      rw [callLeft_none hnone]
      simp [PushPc.left]
  | initDb ok =>
    obtain rfl := Option.some.inj hw
    refine .stage ?_
    cases ok <;> simp [stage, next, show s.poll = _ from hen, PollPc.stage]
  | check =>
    obtain rfl := Option.some.inj hw
    exact .stage (by simp [stage, next, show s.poll = _ from hen, hrun, PollPc.stage])
  | lockDb =>
    obtain rfl := Option.some.inj hw
    exact .stage (by simp [stage, next, show s.poll = _ from hen.1, PollPc.stage])
  | query e ok =>
    obtain rfl := Option.some.inj hw
    exact query_progress hs
  | dispatch sln rest =>
    obtain rfl := Option.some.inj hw
    exact dispatch_progress hs
  | again =>
    obtain rfl := Option.some.inj hw
    exact .stage (by simp [stage, next, show s.poll = _ from hen.1, PollPc.stage])
  | closeDb =>
    obtain rfl := Option.some.inj hw
    exact .stage (by simp [stage, next, show s.poll = _ from hen, PollPc.stage])

theorem stays_stopped (hs : s.step a = some s') (hrun : s.serverRunning = false) :
    s'.serverRunning = false := by
  obtain ⟨hen, rfl⟩ := step_some.1 hs
  cases a with
  | stop => rfl
  | loop t me l ev =>
    obtain ⟨c, l', -, heq⟩ := next_loop hen
    rw [heq]
    exact @postEffect_induct (fun r => r.serverRunning = false) s l ev hrun fun _ _ => hrun
  | submit | find | lock | lookup | choose =>
    simp only [next]
    split <;> exact hrun
  | query e ok =>
    obtain ⟨stmt, -, heq⟩ := next_query hen
    rw [heq]
    unfold afterQuery
    split <;> exact hrun
  | _ => exact hrun

/-- A thread that takes a step has been given a connection. -/
theorem actor_busy (hg : Guarded s) (hs : s.step a = some s') {t : Tid}
    (ht : a.actor = some (.worker t)) : s.workers t ≠ .idle := by
  have hen := (step_some.1 hs).1
  have hcalling : ∀ call, s.calls (.worker t) = some call → s.workers t ≠ .idle := by
    intro call hcall hidle
    obtain ⟨c, hc⟩ := hg.calling t (by simp [hcall])
    rw [hidle] at hc
    cases hc
  cases a with
  | lookup | noCompiler | choose =>
    obtain rfl := Option.some.inj ht
    exact hcalling _ hen
  | append =>
    obtain rfl := Option.some.inj ht
    exact hcalling _ hen.1
  | register | announce | find | unlist | unmap | free =>
    obtain rfl := Who.worker.inj (Option.some.inj ht)
    rw [show s.workers _ = _ from hen]
    simp
  | loop | lock | unslot | pop | finish =>
    obtain rfl := Who.worker.inj (Option.some.inj ht)
    rw [show s.workers _ = _ from hen.1]
    simp
  | _ => cases ht

/-- The threads that may have something to do when the first `n` have been started. -/
def whos (n : ℕ) : Finset Who := insert .poll ((Finset.range n).image .worker)

theorem mem_whos {n : ℕ} {u : Who} :
    u ∈ whos n ↔ u = .poll ∨ ∃ t < n, u = .worker t := by
  simp [whos, eq_comm]

/-- The stages count before the loads: a removal that begins may bring any load. -/
def rank (n : ℕ) (s : Server) : ℕ ×ₗ ℕ :=
  toLex (∑ u ∈ whos n, s.stage u, ∑ u ∈ whos n, s.load u)

/-- One step of the thread `w` lowers the rank. -/
theorem Progress.rank_lt {n : ℕ} {w : Who} (h : Progress s s' w) (hw : w ∈ whos n)
    (hstages : ∀ u ≠ w, s'.stage u = s.stage u) : rank n s' < rank n s := by
  have hsum : ∀ f g : Who → ℕ, f w < g w → (∀ u ≠ w, f u = g u) →
      ∑ u ∈ whos n, f u < ∑ u ∈ whos n, g u := by
    intro f g hlt hrest
    refine Finset.sum_lt_sum (fun u _ => ?_) ⟨w, hw, hlt⟩
    by_cases hu : u = w
    · subst hu
      exact hlt.le
    · exact (hrest u hu).le
  rw [rank, rank, Prod.Lex.toLex_lt_toLex]
  cases h with
  | stage hlt => exact Or.inl (hsum _ _ hlt hstages)
  | load hstage hlt hothers =>
    have hsame : ∑ u ∈ whos n, s'.stage u = ∑ u ∈ whos n, s.stage u := by
      refine Finset.sum_congr rfl fun u _ => ?_
      by_cases hu : u = w
      · rw [hu, hstage]
      · exact hstages u hu
    exact Or.inr ⟨hsame, hsum _ _ hlt hothers⟩

theorem idle_rank {n : ℕ} (hs : s.step a = some s') (hidle : s.idles a = true) :
    rank n s' = rank n s := by
  unfold rank
  rw [Finset.sum_congr rfl fun u _ => (idle_step hs hidle u).1,
    Finset.sum_congr rfl fun u _ => (idle_step hs hidle u).2]

/-- A stopped server of which only the first `n` threads have been started. -/
structure Stopped (n : ℕ) (s : Server) : Prop where
  guarded : Guarded s
  stopped : s.serverRunning = false
  unused : ∀ t ≥ n, s.workers t = .idle

theorem Stopped.step {n : ℕ} (h : Stopped n s) (hc : s.closed a) (hs : s.step a = some s') :
    Stopped n s' := by
  refine ⟨step_guarded h.guarded hs, stays_stopped hs h.stopped, fun t ht => ?_⟩
  have hidle := h.unused t ht
  have hactor : a.actor ≠ some (.worker t) := fun ha => actor_busy h.guarded hs ha hidle
  have hthread : thread a ≠ some t := by
    intro hthread
    cases a with
    | accept => exact hc
    | _ => first | exact hactor (congrArg (Option.map Who.worker) hthread) | cases hthread
  rw [workers_other hs hthread, hidle]

theorem Stopped.rank_step {n : ℕ} (h : Stopped n s) (hc : s.closed a) (hs : s.step a = some s') :
    s.idles a = true ∧ rank n s' = rank n s ∨ rank n s' < rank n s := by
  cases hidle : s.idles a with
  | true => exact Or.inl ⟨rfl, idle_rank hs hidle⟩
  | false =>
    right
    cases hw : a.actor with
    | none =>
      cases a with
      | accept => exact hc.elim
      | stop | submit => cases hidle
      | _ => cases hw
    | some w =>
      have hmem : w ∈ whos n := by
        cases w with
        | poll => exact mem_whos.2 (Or.inl rfl)
        | worker t =>
          refine mem_whos.2 (Or.inr ⟨t, ?_, rfl⟩)
          by_contra hlt
          exact actor_busy h.guarded hs hw (h.unused t (not_lt.1 hlt))
      refine (actor_step h.guarded h.stopped hs hidle hw).rank_lt hmem fun u hu => ?_
      exact stage_other hs hc (by rw [hw]; exact fun heq => hu (Option.some.inj heq).symm)

end Server

/-- In a run only finitely many threads have been started. -/
theorem reaches_unused {db : Table} {as : List Action} {s : Server} (h : Reaches db as s) :
    ∃ n, ∀ t ≥ n, s.workers t = .idle := by
  induction h with
  | nil => exact ⟨0, fun _ _ => rfl⟩
  | @snoc as a s s' hr hs ih =>
    obtain ⟨n, hn⟩ := ih
    cases hthread : Server.thread a with
    | none =>
      refine ⟨n, fun t ht => ?_⟩
      rw [Server.workers_other hs (by simp [hthread]), hn t ht]
    | some u =>
      refine ⟨max n (u + 1), fun t ht => ?_⟩
      have hne : Server.thread a ≠ some t := by
        rw [hthread]
        rintro heq
        obtain rfl := Option.some.inj heq
        exact absurd (le_trans (le_max_right n (u + 1)) ht) (Nat.not_succ_le_self u)
      rw [Server.workers_other hs hne, hn t (le_trans (le_max_left _ _) ht)]

namespace Server

variable {s s' : Server} {a : Action}

/-- An idle step keeps nobody from going on. -/
theorem idle_ready (hs : s.step a = some s') (hidle : s.idles a = true) {w : Who}
    (h : s.ready w) : s'.ready w := by
  obtain ⟨hen, rfl⟩ := step_some.1 hs
  cases a with
  | stop => exact h
  | submit row =>
    simp only [next]
    split <;> exact h
  | loop t me l ev =>
    obtain ⟨c, l', hstep, heq⟩ := next_loop hen
    rw [heq]
    have hmutex : (((s.postEffect l ev).setClient me c).setWorker t (.loop me l')).dbMutex =
        s.dbMutex :=
      @postEffect_induct (fun r => r.dbMutex = s.dbMutex) s l ev rfl fun _ _ => rfl
    have hlocked : ∀ d, (((s.postEffect l ev).setClient me c).clients d).locked =
        (s.clients d).locked := by
      intro d
      by_cases hd : d = me
      · subst hd
        rw [setClient_same]
        exact (loopStep_identity hstep).2
      · rw [setClient_other _ _ hd, postEffect_clients]
    have hplace : l'.pc = l.pc ∨ ∃ sln, l.pc = .sending sln := by
      obtain ⟨pc, errno⟩ := l
      cases ev with
      | errno e =>
        cases loopStep_rule hstep
        exact Or.inl rfl
      | send calls =>
        cases loopStep_rule hstep
        exact Or.inr ⟨_, rfl⟩
      | _ => cases hidle
    refine ready_frame hmutex hlocked (s.postEffect_calls l ev) (s.postEffect_poll l ev)
      (fun u => ?_) h
    rcases ((s.postEffect l ev).setClient me c).setWorker_cases t u (.loop me l') with
      ⟨rfl, hu⟩ | ⟨-, hu⟩
    · exact Or.inr ⟨me, l, l', hen.1, hu, hplace⟩
    · exact Or.inl (hu.trans (congrFun (s.postEffect_workers l ev) u))
  | _ => cases hidle

/-- The thread that takes an idle step sends. -/
theorem idle_mover (hg : Guarded s) (hs : s.step a = some s') (hidle : s.idles a = true) {w : Who}
    (hw : a.mover = some w) : ¬ s.ready w := by
  obtain ⟨hen, -⟩ := step_some.1 hs
  cases a with
  | loop t me l ev =>
    obtain ⟨c, l', hstep, -⟩ := next_loop hen
    obtain ⟨pc, errno⟩ := l
    cases ev with
    | errno e => cases hw
    | send calls =>
      obtain rfl := Option.some.inj hw
      cases loopStep_rule hstep
      have hcall : s.calls (.worker t) = none := hg.no_call (by rw [hen.1]; rfl)
      rw [ready_place hcall, placeReady, hen.1]
      exact id
    | _ => cases hidle
  | stop | submit => cases hw
  | _ => cases hidle

end Server

/-- A stopped server to which nobody connects any more comes to rest: from some point on
nothing happens but what comes from outside and sends that fail and are repeated. -/
theorem settles_down {db : Table} {as : List Action} {run : ℕ → Server} {acts : ℕ → Action}
    (h : Reaches db as (run 0)) (hrun : (run 0).serverRunning = false)
    (hacts : Forever Server.step run acts) (hclosed : ∃ k, ∀ i ≥ k, (run i).closed (acts i)) :
    ∃ k, ∀ i ≥ k, (run i).idles (acts i) = true := by
  obtain ⟨k, hk⟩ := hclosed
  have hreach : Reaches db (as ++ (List.range k).map acts) (run k) := h.trans (hacts.upTo k)
  have hstopped : (run k).serverRunning = false :=
    (hacts.upTo k).invariant hrun fun s a s' hrun hs => Server.stays_stopped hs hrun
  obtain ⟨n, hn⟩ := reaches_unused hreach
  obtain ⟨i, hi⟩ := (hacts.drop k).settles (Server.rank n)
    ⟨reaches_guarded hreach, hstopped, hn⟩ (fun i => hk (k + i) (Nat.le_add_right k i))
    (fun s a s' hI hc hs => Server.Stopped.step hI hc hs)
    fun s a s' hI hc hs => Server.Stopped.rank_step hI hc hs
  refine ⟨k + i, fun j hj => ?_⟩
  obtain ⟨d, rfl⟩ := Nat.exists_eq_add_of_le hj
  rw [Nat.add_assoc]
  exact hi (i + d) (Nat.le_add_right i d)

/-- When every thread gets its turns the server winds down: the polling thread stops, and each
worker comes to its end or keeps repeating a send that fails. -/
theorem winds_down (db : Table) (as : List Action) (run : ℕ → Server) (acts : ℕ → Action)
    (h : Reaches db as (run 0)) (hrun : (run 0).serverRunning = false)
    (hacts : Forever Server.step run acts) (hclosed : ∃ k, ∀ i ≥ k, (run i).closed (acts i))
    (hfair : Fair Server.step Action.mover run acts) :
    ∃ k, ∀ i ≥ k, (run i).idles (acts i) = true ∧ (run i).poll = .done ∧
      ∀ t, ((run i).workers t).over = true ∨ ((run i).workers t).sends = true := by
  obtain ⟨k, hk⟩ := settles_down h hrun hacts hclosed
  have hreach : ∀ i, Reaches db (as ++ (List.range i).map acts) (run i) :=
    fun i => h.trans (hacts.upTo i)
  have hresting : ∀ i ≥ k, ∀ w, (run i).resting w = true := by
    intro i hi w
    by_contra hw
    obtain ⟨u, hu⟩ := Server.exists_ready (hreach i) (by simpa using hw)
    -- who is ready stays so, and then fairness gives it a step that is not idle
    have hready : ∀ j, (run (i + j)).ready u := by
      intro j
      induction j with
      | zero => exact hu
      | succ j ih =>
        exact Server.idle_ready (hacts (i + j)) (hk _ (hi.trans (Nat.le_add_right i j))) ih
    obtain ⟨j, hj⟩ := (hfair.drop i).moves fun j => Server.ready_able (hready j)
    exact Server.idle_mover (reaches_guarded (hreach (i + j))) (hacts (i + j))
      (hk _ (hi.trans (Nat.le_add_right i j))) hj (hready j)
  refine ⟨k, fun i hi => ⟨hk i hi, ?_, fun t => ?_⟩⟩
  · simpa [Server.resting] using hresting i hi .poll
  · simpa [Server.resting] using hresting i hi (.worker t)

/-- Two clients, of which the second is reset, and an extraction that has begun. -/
def stoppedActs : List Action :=
  joining 0 0 ++ joining 1 1 ++ resetting 1 1 ++ starting ++ [.query .select true, .stop]

/-- The polling thread passes the solution of its extraction to the first client, whose loop
tests the flag; the second client is removed. -/
def downActs : List Action :=
  [.loop 0 0 ⟨.top, .other 0⟩ (.running false), .query (.start [sampleRow 1]) true,
    .query (.updates [sampleRow 1] [sampleRow 1]) true] ++ unmapping 1 1 1 ++
    [.query (.updates [sampleRow 1] []) true, .dispatch (decodeRow 0 (sampleRow 1)) []] ++
    pushing .poll (decodeRow 0 (sampleRow 1)) 0 ++
    [.lock 1 1 1, .finish 1 1 1, .again, .free 1 1 1, .check, .closeDb]

/-- A second request to stop changes nothing. -/
theorem Server.stop_again {s : Server} (h : s.serverRunning = false) : s.step .stop = some s := by
  have hsame : s.next .stop = s := by
    rw [Server.next, ← h]
  exact Server.step_some.2 ⟨trivial, hsame⟩

/-- Then nothing is left but further requests to stop. -/
theorem winds_down_client : ∃ (s s' : Server) (run : ℕ → Server),
    Reaches oneNewRow stoppedActs s ∧ run 0 = s ∧ (∀ i ≥ downActs.length, run i = s') ∧
      s'.workers 0 = .loop 0 ⟨.ended, .other 0⟩ ∧ s'.workers 1 = .done ∧
      ∃ k, ∀ i ≥ k, (run i).idles (downActs.getD i .stop) = true ∧ (run i).poll = .done ∧
        ∀ t, ((run i).workers t).over = true ∨ ((run i).workers t).sends = true := by
  have hreach : Reaches oneNewRow stoppedActs _ := Run.iff_foldlM.2 rfl
  have hend : Reaches oneNewRow (stoppedActs ++ downActs) _ := Run.iff_foldlM.2 rfl
  obtain ⟨s, hs, hdown⟩ := Run.append_iff.1 hend
  obtain rfl := hs.unique hreach
  obtain ⟨run, hzero, hlast, hforever, hfair⟩ := hdown.prolong (Server.stop_again rfl)
    (Server.ended_unable hend rfl fun t => by rcases t with _ | _ | t <;> rfl)
  refine ⟨_, _, run, hreach, hzero, hlast, rfl, rfl, winds_down oneNewRow stoppedActs run
    (fun i => downActs.getD i .stop) (by rw [hzero]; exact hreach) (by rw [hzero]; rfl) hforever
    ⟨downActs.length, fun i hi => ?_⟩ hfair⟩
  rw [List.getD_eq_getElem?_getD, List.getElem?_eq_none hi]
  trivial

end JudgeServer
