import JudgeServer.Server.Step

/-! The life of the shared connection: the polling thread opens it in
`solutions_init_db` and closes it in `solutions_close_db`, the client threads use it at
any time. The polling thread itself asks only while it is open, so all queries go over
an open connection exactly when those of the client threads do. -/

namespace JudgeServer

open Transition

namespace Server

/-- The query that a step issues. -/
def asks (s : Server) : Action → Option Stmt
  | .loop _ _ l (.post _) =>
    match l.pc with
    | .posting id code test => postResult id code test
    | _ => none
  | .noCompiler _ sln _ => some (.postResult sln.id 0 (cstr "FL"))
  | .choose _ sln k _ =>
    if s.chooseFrom k = none then some (.postResult sln.id 0 (cstr "FL")) else none
  | .query e _ => e.stmt
  | _ => none

end Server

/-- What the database answers to the query of a step. -/
def Action.outcome : Action → Bool
  | .loop _ _ _ (.post ok) => ok
  | .noCompiler _ _ ok => ok
  | .choose _ _ _ ok => ok
  | .query _ ok => ok
  | _ => true

/-- What a step does to the table, the connection and the log: it issues its query, or
it does nothing, or a row comes in, or the connection is opened or closed. -/
inductive DbStep (s : Server) (a : Action) (s' : Server) : Prop
  | quiet (hask : s.asks a = none) (hlog : s'.log = s.log) (hdb : s'.db = s.db)
      (hconn : s'.conn = s.conn)
  | asked (stmt : Stmt) (hask : s.asks a = some stmt)
      (hlog : s'.log = (s.query stmt a.outcome).log) (hdb : s'.db = (s.query stmt a.outcome).db)
      (hconn : s'.conn = s.conn)
  | submitted (row : Row) (hnew : row.id ∉ s.db.tuples.map Tuple.id) (ha : a = .submit row)
      (hlog : s'.log = s.log) (hdb : s'.db = s.db.insert row hnew) (hconn : s'.conn = s.conn)
  | opened (ok : Bool) (ha : a = .initDb ok) (hlog : s'.log = s.log) (hdb : s'.db = s.db)
      (hconn : s'.conn = if ok then .open else .failed)
  | closed (ha : a = .closeDb) (hlog : s'.log = s.log) (hdb : s'.db = s.db.rollback)
      (hconn : s'.conn = .closed)

theorem step_db {s s' : Server} {a : Action} (hs : s.step a = some s') : DbStep s a s' := by
  obtain ⟨hen, rfl⟩ := Server.step_some.1 hs
  cases a with
  | submit row =>
    refine .submitted row hen.2 rfl ?_ ?_ ?_ <;> simp only [Server.next, dif_pos hen.2]
  | loop t me l ev =>
    obtain ⟨c, l', -, heq⟩ := Server.next_loop hen
    rw [heq]
    cases ev with
    | post ok =>
      simp only [Server.postEffect]
      split
      · rename_i id code test hpc
        split
        · rename_i stmt hstmt
          exact .asked stmt (by simp only [Server.asks, hpc, hstmt]) rfl rfl rfl
        · rename_i hnone
          exact .quiet (by simp only [Server.asks, hpc, hnone]) rfl rfl rfl
      · rename_i hpc
        refine .quiet ?_ rfl rfl rfl
        simp only [Server.asks]
    | _ => exact .quiet rfl rfl rfl rfl
  | find t me errno =>
    refine .quiet rfl ?_ ?_ ?_ <;> (simp only [Server.next]; split <;> rfl)
  | lock t me c =>
    refine .quiet rfl ?_ ?_ ?_ <;> (simp only [Server.next]; split <;> rfl)
  | lookup who sln =>
    refine .quiet rfl ?_ ?_ ?_ <;> (simp only [Server.next]; split <;> rfl)
  | noCompiler who sln ok => exact .asked _ rfl rfl rfl rfl
  | choose who sln k ok =>
    simp only [Server.next]
    split
    · rename_i c hc
      exact .quiet (by simp [Server.asks, hc]) rfl rfl rfl
    · rename_i hnone
      exact .asked _ (by simp only [Server.asks, hnone, if_true]) rfl rfl rfl
  | query e ok =>
    obtain ⟨stmt, hstmt, heq⟩ := Server.next_query hen
    rw [heq]
    exact .asked stmt hstmt (Server.afterQuery_log ..) (Server.afterQuery_db ..)
      (Server.afterQuery_conn ..)
  | initDb ok => exact .opened ok rfl rfl rfl rfl
  | closeDb => exact .closed rfl rfl rfl rfl
  | _ => exact .quiet rfl rfl rfl rfl

/-- Between the success of `solutions_init_db` and the call of `solutions_close_db`. -/
def PollPc.Polling (pc : PollPc) : Prop := pc ≠ .init ∧ pc ≠ .done

/-- The polling thread owns the connection's life and, while it extracts, `db_mutex`;
it calls `push_solution` only in its dispatch loop. -/
structure Polled (s : Server) : Prop where
  conn_iff : s.conn = .open ↔ s.poll.Polling
  mutex_iff : s.dbMutex = true ↔ ∃ e, s.poll = .extract e
  dispatching : s.calls .poll ≠ none → ∃ rest, s.poll = .dispatch rest

theorem polled_init (db : Table) : Polled (.init db) where
  conn_iff := by simp [Server.init, PollPc.Polling]
  mutex_iff := by simp [Server.init]
  dispatching := by simp [Server.init]

theorem Polled.frame {s s' : Server} (h : Polled s) (hconn : s'.conn = s.conn)
    (hpoll : s'.poll = s.poll) (hmutex : s'.dbMutex = s.dbMutex)
    (hcalls : s'.calls .poll ≠ none → s.calls .poll ≠ none) : Polled s' := by
  refine ⟨?_, ?_, fun hcall => ?_⟩
  · rw [hconn, hpoll]
    exact h.conn_iff
  · rw [hmutex, hpoll]
    exact h.mutex_iff
  · rw [hpoll]
    exact h.dispatching (hcalls hcall)

/-- Between the opening and the closing of the connection it is open. -/
theorem Polled.is_open {s : Server} {p : PollPc} (h : Polled s) (hp : s.poll = p)
    (hpolling : p.Polling) : s.conn = .open := h.conn_iff.2 (hp ▸ hpolling)

/-- Outside of the extraction the polling thread does not hold `db_mutex`. -/
theorem Polled.unlocked {s : Server} {p : PollPc} (h : Polled s) (hp : s.poll = p)
    (hout : ∀ e, p ≠ .extract e) : ¬ s.dbMutex = true := by
  rw [h.mutex_iff, hp]
  rintro ⟨e, he⟩
  exact hout e he

/-- Outside of the dispatch loop the polling thread is in no call. -/
theorem Polled.no_call {s : Server} {p : PollPc} (h : Polled s) (hp : s.poll = p)
    (hout : ∀ rest, p ≠ .dispatch rest) : s.calls .poll = none := by
  by_contra hne
  obtain ⟨rest, hrest⟩ := h.dispatching hne
  exact hout rest (hp.symm.trans hrest)

theorem step_polled {s s' : Server} {a : Action} (h : Polled s) (hs : s.step a = some s') :
    Polled s' := by
  obtain ⟨hen, rfl⟩ := Server.step_some.1 hs
  have hgoes : ∀ {who : Who} {k : PushCall} {call : Option PushCall}, s.calls who = some k →
      Function.update s.calls who call .poll ≠ none → s.calls .poll ≠ none := by
    intro who k call hwho hcall
    by_cases hp : Who.poll = who
    · subst hp
      simp [hwho]
    · rwa [Function.update_of_ne hp] at hcall
  cases a with
  | submit row =>
    simp only [Server.next]
    split
    · exact h.frame rfl rfl rfl id
    · exact h
  | loop t me l ev =>
    obtain ⟨c, l', -, heq⟩ := Server.next_loop hen
    rw [heq]
    have hpost : Polled (s.postEffect l ev) :=
      s.postEffect_induct l ev h fun _ _ => h.frame rfl rfl rfl id
    exact hpost.frame rfl rfl rfl id
  | find t me errno =>
    simp only [Server.next]
    split <;> exact h.frame rfl rfl rfl id
  | lock t me c =>
    simp only [Server.next]
    split
    · refine h.frame rfl rfl rfl fun hcall => ?_
      rwa [Server.setCall_other _ _ (by simp)] at hcall
    · exact h.frame rfl rfl rfl id
  | pop t me c sln rest =>
    refine h.frame rfl rfl rfl fun hcall => ?_
    simp only [Server.next] at hcall
    rwa [Server.setCall_other _ _ (by simp)] at hcall
  | lookup who sln =>
    simp only [Server.next]
    split <;> exact h.frame rfl rfl rfl (hgoes hen)
  | noCompiler who sln ok => exact h.frame rfl rfl rfl (hgoes hen)
  | choose who sln k ok =>
    simp only [Server.next]
    split <;> exact h.frame rfl rfl rfl (hgoes hen)
  | append who sln c => exact h.frame rfl rfl rfl (hgoes hen.1)
  | initDb ok =>
    have hinit : s.poll = .init := hen
    have hfree := h.unlocked hinit (by simp)
    refine ⟨?_, ?_, fun hcall => absurd (h.no_call hinit (by simp)) hcall⟩
    · cases ok <;> simp [Server.next, PollPc.Polling]
    · cases ok <;> simpa [Server.next] using hfree
  | check =>
    have htop : s.poll = .top := hen
    have hopen := h.is_open htop (by simp [PollPc.Polling])
    have hfree := h.unlocked htop (by simp)
    refine ⟨?_, ?_, fun hcall => absurd (h.no_call htop (by simp)) hcall⟩
    · cases hrun : s.serverRunning <;> simp [Server.next, PollPc.Polling, hopen, hrun]
    · cases hrun : s.serverRunning <;> simpa [Server.next, hrun] using hfree
  | lockDb =>
    have hsleep : s.poll = .sleep := hen.1
    have hopen := h.is_open hsleep (by simp [PollPc.Polling])
    refine ⟨?_, ?_, fun hcall => absurd (h.no_call hsleep (by simp)) hcall⟩
    · simp [Server.next, PollPc.Polling, hopen]
    · simp [Server.next]
  | query e ok =>
    have hext : s.poll = .extract e := hen.1
    have hopen := h.is_open hext (by simp [PollPc.Polling])
    obtain ⟨stmt, -, heq⟩ := Server.next_query hen
    rw [heq]
    have hcall : ((s.query stmt ok).afterQuery
        (e.next (ok && s.conn = .open) (s.query stmt ok).db)).calls .poll = none := by
      rw [Server.afterQuery_calls]
      exact h.no_call hext (by simp)
    refine ⟨?_, ?_, fun hne => absurd hcall hne⟩
    · rw [Server.afterQuery_conn]
      unfold Server.afterQuery
      split
      · split_ifs <;> simp [PollPc.Polling, Server.query, hopen]
      · simp [PollPc.Polling, Server.query, hopen]
    · unfold Server.afterQuery
      split
      · split_ifs <;> simp
      · have hmutex : s.dbMutex = true := h.mutex_iff.2 ⟨e, hext⟩
        simp [Server.query, hmutex]
  | dispatch sln rest =>
    have hdis : s.poll = .dispatch (sln :: rest) := hen.1
    have hopen := h.is_open hdis (by simp [PollPc.Polling])
    have hfree := h.unlocked hdis (by simp)
    refine ⟨?_, ?_, fun _ => ⟨rest, rfl⟩⟩
    · simp [Server.next, Server.setCall, PollPc.Polling, hopen]
    · simpa [Server.next, Server.setCall] using hfree
  | again =>
    have hdis : s.poll = .dispatch [] := hen.1
    have hopen := h.is_open hdis (by simp [PollPc.Polling])
    have hfree := h.unlocked hdis (by simp)
    refine ⟨?_, ?_, fun hcall => absurd hen.2 hcall⟩
    · simp [Server.next, PollPc.Polling, hopen]
    · simpa [Server.next] using hfree
  | closeDb =>
    have hclose : s.poll = .close := hen
    have hfree := h.unlocked hclose (by simp)
    refine ⟨?_, ?_, fun hcall => absurd (h.no_call hclose (by simp)) hcall⟩
    · simp [Server.next, PollPc.Polling]
    · simpa [Server.next] using hfree
  | _ => exact h.frame rfl rfl rfl id

theorem reaches_polled {db : Table} {as : List Action} {s : Server} (h : Reaches db as s) :
    Polled s := h.invariant (polled_init db) fun _ _ _ => step_polled

/-- No query has been issued but over an open connection. -/
def AskedOpen (s : Server) : Prop := ∀ q ∈ s.log, q.conn = .open

/-- A client thread that posts a verdict of a known code, or the FL result of a solution
for which there is no compiler or no client, does so while the polling thread polls. -/
def AsksWhilePolling (s : Server) : Action → Prop
  | .loop _ _ l (.post _) => ∀ id code test, l.pc = .posting id code test → code.toNat < 8 →
      s.poll.Polling
  | .noCompiler (.worker _) _ _ => s.poll.Polling
  | .choose (.worker _) _ k _ => s.chooseFrom k = none → s.poll.Polling
  | _ => True

/-- A step that asks does so while the connection is open, exactly when it is no client
thread's or the polling thread polls. -/
theorem asksWhilePolling_iff {s s' : Server} {a : Action} (h : Polled s)
    (hs : s.step a = some s') :
    AsksWhilePolling s a ↔ ∀ stmt, s.asks a = some stmt → s.conn = .open := by
  obtain ⟨hen, -⟩ := Server.step_some.1 hs
  -- the polling thread pushes only while it polls
  have hpoll : ∀ {k : PushCall}, s.calls .poll = some k → s.conn = .open := by
    intro k hk
    obtain ⟨rest, hrest⟩ := h.dispatching (by simp [hk])
    exact h.conn_iff.2 (by simp [hrest, PollPc.Polling])
  cases a with
  | loop t me l ev =>
    cases ev with
    | post ok =>
      simp only [AsksWhilePolling, Server.asks, h.conn_iff]
      refine ⟨fun hok stmt hask => ?_, fun hok id code test hpc hcode => ?_⟩
      · split at hask
        · rename_i id code test hpc
          refine hok id code test hpc ?_
          rcases postResult_cases id code test with ⟨hcode, -⟩ | ⟨-, hnone⟩
          · exact hcode
          · rw [hnone] at hask
            cases hask
        · cases hask
      · rcases postResult_cases id code test with ⟨-, accepted, text, hpost⟩ | ⟨hge, -⟩
        · exact hok _ (by rw [hpc]; exact hpost)
        · omega
    | _ => simp [AsksWhilePolling, Server.asks]
  | noCompiler who sln ok =>
    cases who with
    | poll => simp [AsksWhilePolling, Server.asks, hpoll hen]
    | worker t => simp [AsksWhilePolling, Server.asks, h.conn_iff]
  | choose who sln k ok =>
    cases who with
    | poll => simp [AsksWhilePolling, Server.asks, hpoll hen]
    | worker t => simp [AsksWhilePolling, Server.asks, h.conn_iff]
  | query e ok =>
    have hopen : s.conn = .open := h.conn_iff.2 (by simp [hen.1, PollPc.Polling])
    simp [AsksWhilePolling, hopen]
  | _ => simp [AsksWhilePolling, Server.asks]

theorem askedOpen_step {s s' : Server} {a : Action} (h : Polled s) (hs : s.step a = some s') :
    AskedOpen s' ↔ AskedOpen s ∧ AsksWhilePolling s a := by
  rw [asksWhilePolling_iff h hs]
  unfold AskedOpen
  cases step_db hs with
  | asked stmt hask hlog =>
    rw [hlog, hask]
    simp only [Server.query, List.mem_cons, forall_eq_or_imp, Option.some.injEq, forall_eq']
    exact and_comm
  | quiet hask hlog => simp [hlog, hask]
  | submitted row hnew ha hlog => simp [hlog, ha, Server.asks]
  | opened ok ha hlog => simp [hlog, ha, Server.asks]
  | closed ha hlog => simp [hlog, ha, Server.asks]

/-- Over a whole run every query goes over an open connection exactly when no client
thread asks before the polling thread has opened it or after it has closed it. -/
theorem asked_open_iff (db : Table) (as : List Action) (s : Server) (h : Reaches db as s) :
    AskedOpen s ↔ Along Server.step (.init db) as AsksWhilePolling := by
  induction h with
  | nil => exact iff_of_true (by simp [AskedOpen, Server.init]) along_nil
  | @snoc as a s s' hr hs ih =>
    rw [along_snoc hr, ← ih]
    exact askedOpen_step (reaches_polled hr) hs

/-- The client answers solution 1 with an accepted verdict. -/
def answering (t : Tid) (me : ClientRef) : List Action :=
  [.loop t me ⟨.top, .other 0⟩ (.running true), .loop t me ⟨.process, .other 0⟩ .process,
    .loop t me ⟨.recvLen, .other 0⟩ (.recvLen [.data [0, 7]]),
    .loop t me ⟨.recvBody 7, .other 0⟩ (.recvBody [.data [109, 0, 0, 0, 1, 0, 1]] []),
    .loop t me ⟨.posting 1 0 1, .other 0⟩ (.post true)]

/-- The result packet is handled while the polling thread dispatches. -/
theorem asked_open_answering : ∃ s,
    Reaches oneNewRow (joining 0 0 ++ starting ++ extracting [sampleRow 1] ++ answering 0 0) s ∧
      s.log.length = 5 ∧ AskedOpen s := by
  have hrun : Reaches oneNewRow (joining 0 0 ++ starting ++ extracting [sampleRow 1] ++ answering 0 0)
      _ := Run.iff_foldlM.2 rfl
  have hpolls : Reaches oneNewRow (joining 0 0 ++ starting ++ extracting [sampleRow 1]) _ :=
    Run.iff_foldlM.2 rfl
  refine ⟨_, hrun, rfl, (asked_open_iff oneNewRow _ _ hrun).2 ((along_append hpolls _).2 ⟨?_, ?_⟩)⟩
  · exact along_of_forall fun a ha s => by fin_cases ha <;> trivial
  · refine (along_cons rfl).2 ⟨trivial, (along_cons rfl).2 ⟨trivial, (along_cons rfl).2 ⟨trivial, ?_⟩⟩⟩
    refine (along_cons rfl).2 ⟨trivial, (along_cons rfl).2 ⟨fun _ _ _ _ _ => ?_, along_nil⟩⟩
    exact ⟨nofun, nofun⟩

/-- The verdict is posted before `solutions_init_db`, and, when the server is stopped
while the client waits, after `solutions_close_db`. -/
theorem asked_unopened :
    (∃ s, Reaches oneNewRow (joining 0 0 ++ answering 0 0) s ∧
      s.log.map Query.conn = [.unset] ∧ ¬ AskedOpen s) ∧
    ∃ s, Reaches oneNewRow
        ([.initDb true] ++ joining 0 0 ++ (answering 0 0).take 2 ++ [.stop, .check, .closeDb] ++
          (answering 0 0).drop 2) s ∧
      s.log.map Query.conn = [.closed] ∧ ¬ AskedOpen s := by
  refine ⟨⟨_, Run.iff_foldlM.2 rfl, rfl, ?_⟩, ⟨_, Run.iff_foldlM.2 rfl, rfl, ?_⟩⟩
  · intro h
    have hopen := h _ List.mem_cons_self
    cases hopen
  · intro h
    have hopen := h _ List.mem_cons_self
    cases hopen

end JudgeServer
