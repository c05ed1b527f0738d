import JudgeServer.Server.State

/-! The steps of the server: every section under a mutex, every query and every
unlocked access to a map is one step of one thread, and so is `client_free`. `remove_client`
stays inside the mutex of the client it drains, and the polling thread inside `db_mutex` while it
extracts. -/

namespace JudgeServer

open Transition

/-- A step names the thread and the place it is at. -/
inductive Action
  -- run_server, local_control_loop, the submission of a row by another program
  | accept (t : Tid) (compilers : List UInt16)
  | stop
  | submit (row : Row)
  -- client_loop
  | register (t : Tid) (compilers : List UInt16) (order : List ClientRef)
  | announce (t : Tid) (me : ClientRef) (compilers : List UInt16) (mems : List CompilersMap.Memory)
  | loop (t : Tid) (me : ClientRef) (l : Locals) (ev : LoopEv)
  -- remove_client
  | find (t : Tid) (me : ClientRef) (errno : Errno)
  | unlist (t : Tid) (me c : ClientRef)
  | unmap (t : Tid) (me c : ClientRef)
  | lock (t : Tid) (me c : ClientRef)
  | unslot (t : Tid) (me c : ClientRef)
  | pop (t : Tid) (me c : ClientRef) (sln : Solution) (rest : List Solution)
  | finish (t : Tid) (me c : ClientRef)
  | free (t : Tid) (me c : ClientRef)
  -- push_solution
  | lookup (who : Who) (sln : Solution)
  | noCompiler (who : Who) (sln : Solution) (ok : Bool)
  | choose (who : Who) (sln : Solution) (k : CompilerRef) (ok : Bool)
  | append (who : Who) (sln : Solution) (c : ClientRef)
  -- poll_database
  | initDb (ok : Bool)
  | check
  | lockDb
  | query (e : ExtractPc) (ok : Bool)
  | dispatch (sln : Solution) (rest : List Solution)
  | again
  | closeDb

namespace Server

/-- What a step of the loop needs of the shared state. -/
def admits (s : Server) (me : ClientRef) : LoopEv → Bool
  | .running server => server = s.serverRunning
  | .process => !(s.clients me).locked
  | .clear => !(s.clients me).locked
  | .post _ => !s.dbMutex
  -- pushes are steps of the pushing thread
  | .push _ => false
  | _ => true

/-- The query of `post_result`. -/
def postEffect (s : Server) (l : Locals) : LoopEv → Server
  | .post ok =>
    match l.pc with
    | .posting id code test =>
      match postResult id code test with
      | some stmt => s.query stmt ok
      | none => s
    | _ => s
  | _ => s

def enabled (s : Server) : Action → Prop
  | .accept t _ => s.workers t = .idle
  | .stop => True
  | .submit row => row.checking = 0 ∧ row.id ∉ s.db.tuples.map Tuple.id
  | .register t compilers _ => s.workers t = .register compilers
  | .announce t me compilers _ => s.workers t = .announce me compilers
  | .loop t me l ev => s.workers t = .loop me l ∧ s.admits me ev ∧
      (loopStep (s.clients me, l) ev).isSome
  | .find t me errno => s.workers t = .loop me ⟨.removing, errno⟩
  | .unlist t me c => s.workers t = .remove me c .lists
  | .unmap t me c => s.workers t = .remove me c .map
  | .lock t me c => s.workers t = .remove me c .lock ∧ (s.clients c).locked = false
  | .unslot t me c => s.workers t = .remove me c .slot ∧ s.calls (.worker t) = none
  | .pop t me c sln rest => s.workers t = .remove me c .drain ∧ s.calls (.worker t) = none ∧
      (s.clients c).solutionsQueue = sln :: rest
  | .finish t me c => s.workers t = .remove me c .drain ∧ s.calls (.worker t) = none ∧
      (s.clients c).solutionsQueue = []
  | .free t me c => s.workers t = .remove me c .free
  | .lookup who sln => s.calls who = some ⟨sln, .lookup⟩
  | .noCompiler who sln _ => s.calls who = some ⟨sln, .noCompiler⟩
  | .choose who sln k _ => s.calls who = some ⟨sln, .choose k⟩
  | .append who sln c => s.calls who = some ⟨sln, .append c⟩ ∧ (s.clients c).locked = false
  | .initDb _ => s.poll = .init
  | .check => s.poll = .top
  | .lockDb => s.poll = .sleep ∧ s.dbMutex = false
  | .query e _ => s.poll = .extract e ∧ e.stmt.isSome
  | .dispatch sln rest => s.poll = .dispatch (sln :: rest) ∧ s.calls .poll = none
  | .again => s.poll = .dispatch [] ∧ s.calls .poll = none
  | .closeDb => s.poll = .close

instance (s : Server) (a : Action) : Decidable (s.enabled a) := by
  cases a <;> dsimp only [enabled] <;> infer_instance

/-- The polling thread goes on after a query; at the end it leaves `db_mutex`, and on
success it dispatches the objects it has decoded. -/
def afterQuery (s : Server) (e : ExtractPc) : Server :=
  match e with
  | .ret code rows => { s with
      dbMutex := false
      nextAddr := s.nextAddr + rows.length
      poll := if code = 0 then .dispatch (decodeRows s.nextAddr rows) else .top }
  | e => { s with poll := .extract e }

def next (s : Server) : Action → Server
  | .accept t compilers => s.setWorker t (.register compilers)
  | .stop => { s with serverRunning := false }
  | .submit row =>
    if h : row.id ∉ s.db.tuples.map Tuple.id then { s with db := s.db.insert row h } else s
  | .register t compilers order =>
    { s with
      clients := Function.update s.clients s.nextClient (clientCreate s.lastClientId)
      clientsMap := rehash order (s.nextClient :: s.clientsMap)
      nextClient := s.nextClient + 1
      lastClientId := s.lastClientId + 1
      workers := Function.update s.workers t (.announce s.nextClient compilers) }
  | .announce t me compilers mems =>
    { s with
      compilersMap := CompilersMap.announceAll (s.clients me).id compilers mems s.compilersMap
      workers := Function.update s.workers t (.loop me ⟨.top, .other 0⟩) }
  | .loop t me l ev =>
    match loopStep (s.clients me, l) ev with
    | some (c, l') => ((s.postEffect l ev).setClient me c).setWorker t (.loop me l')
    | none => s
  | .find t me _ =>
    match s.findClient (s.clients me).id with
    | some c => s.setWorker t (.remove me c .lists)
    | none => s.setWorker t .done
  | .unlist t me c =>
    { s with
      compilersMap := s.compilersMap.unlist (s.clients me).id
      workers := Function.update s.workers t (.remove me c .map) }
  | .unmap t me c =>
    { s with
      clientsMap := s.clientsMap.filter (· ≠ c)
      lastClientId := s.lastClientId - 1
      workers := Function.update s.workers t (.remove me c .lock) }
  | .lock t me c =>
    let s' := s.setClient c { s.clients c with locked := true }
    match (s.clients c).checkingSolution with
    | some sln => (s'.setWorker t (.remove me c .slot)).setCall (.worker t) (some ⟨sln, .lookup⟩)
    | none => s'.setWorker t (.remove me c .drain)
  | .unslot t me c =>
    (s.setClient c (s.clients c).clearChecking).setWorker t (.remove me c .drain)
  | .pop t _ c sln rest =>
    (s.setClient c { s.clients c with solutionsQueue := rest }).setCall (.worker t)
      (some ⟨sln, .lookup⟩)
  | .finish t me c =>
    (s.setClient c { s.clients c with locked := false }).setWorker t (.remove me c .free)
  -- client_free, which also frees what has come into the queue and the slot since the unlock
  | .free t _ c =>
    (s.setClient c { s.clients c with solutionsQueue := [], checkingSolution := none }).setWorker t
      .done
  | .lookup who sln =>
    match s.compilersMap.find sln.compilerId with
    | some k => s.setCall who (some ⟨sln, .choose k⟩)
    | none => s.setCall who (some ⟨sln, .noCompiler⟩)
  | .noCompiler who sln ok => (s.postFailed sln ok).setCall who none
  | .choose who sln k ok =>
    match s.chooseFrom k with
    | some c => s.setCall who (some ⟨sln, .append c⟩)
    | none => (s.postFailed sln ok).setCall who none
  | .append who sln c => (s.setClient c ((s.clients c).push sln)).setCall who none
  | .initDb ok => { s with conn := if ok then .open else .failed, poll := if ok then .top else .done }
  | .check => { s with poll := if s.serverRunning then .sleep else .close }
  | .lockDb => { s with dbMutex := true, poll := .extract .select }
  | .query e ok =>
    match e.stmt with
    | some stmt =>
      let s' := s.query stmt ok
      s'.afterQuery (e.next (ok && s.conn = .open) s'.db)
    | none => s
  | .dispatch sln rest =>
    ({ s with poll := .dispatch rest }).setCall .poll (some ⟨sln, .lookup⟩)
  | .again => { s with poll := .top }
  | .closeDb => { s with conn := .closed, db := s.db.rollback, poll := .done }

def step (s : Server) (a : Action) : Option Server :=
  if s.enabled a then some (s.next a) else none

theorem step_some {s s' : Server} {a : Action} : s.step a = some s' ↔ s.enabled a ∧ s.next a = s' := by
  unfold step
  split_ifs with h <;> simp [h]

@[simp] theorem afterQuery_clients (s : Server) (e : ExtractPc) :
    (s.afterQuery e).clients = s.clients := by unfold afterQuery; split <;> rfl

@[simp] theorem afterQuery_clientsMap (s : Server) (e : ExtractPc) :
    (s.afterQuery e).clientsMap = s.clientsMap := by unfold afterQuery; split <;> rfl

@[simp] theorem afterQuery_nextClient (s : Server) (e : ExtractPc) :
    (s.afterQuery e).nextClient = s.nextClient := by unfold afterQuery; split <;> rfl

@[simp] theorem afterQuery_workers (s : Server) (e : ExtractPc) :
    (s.afterQuery e).workers = s.workers := by unfold afterQuery; split <;> rfl

@[simp] theorem afterQuery_calls (s : Server) (e : ExtractPc) :
    (s.afterQuery e).calls = s.calls := by unfold afterQuery; split <;> rfl

@[simp] theorem afterQuery_db (s : Server) (e : ExtractPc) :
    (s.afterQuery e).db = s.db := by unfold afterQuery; split <;> rfl

@[simp] theorem afterQuery_log (s : Server) (e : ExtractPc) :
    (s.afterQuery e).log = s.log := by unfold afterQuery; split <;> rfl

@[simp] theorem afterQuery_conn (s : Server) (e : ExtractPc) :
    (s.afterQuery e).conn = s.conn := by unfold afterQuery; split <;> rfl

/-- A query of the extraction, and where the polling thread goes from there. -/
theorem next_query {s : Server} {e : ExtractPc} {ok : Bool} (hen : s.enabled (.query e ok)) :
    ∃ stmt, e.stmt = some stmt ∧ s.next (.query e ok) =
      (s.query stmt ok).afterQuery (e.next (ok && s.conn = .open) (s.query stmt ok).db) := by
  obtain ⟨stmt, hstmt⟩ := Option.isSome_iff_exists.1 hen.2
  refine ⟨stmt, hstmt, ?_⟩
  simp only [next, hstmt]

/-- What a state and every query on it satisfy, it satisfies after the step of a loop. -/
theorem postEffect_induct {P : Server → Prop} (s : Server) (l : Locals) (ev : LoopEv) (h : P s)
    (hquery : ∀ stmt ok, P (s.query stmt ok)) : P (s.postEffect l ev) := by
  unfold postEffect
  split
  · split
    · split
      · exact hquery _ _
      · exact h
    · exact h
  · exact h

@[simp] theorem postEffect_clients (s : Server) (l : Locals) (ev : LoopEv) :
    (s.postEffect l ev).clients = s.clients :=
  @postEffect_induct (fun r => r.clients = s.clients) s l ev rfl fun _ _ => rfl

@[simp] theorem postEffect_clientsMap (s : Server) (l : Locals) (ev : LoopEv) :
    (s.postEffect l ev).clientsMap = s.clientsMap :=
  @postEffect_induct (fun r => r.clientsMap = s.clientsMap) s l ev rfl fun _ _ => rfl

@[simp] theorem postEffect_workers (s : Server) (l : Locals) (ev : LoopEv) :
    (s.postEffect l ev).workers = s.workers :=
  @postEffect_induct (fun r => r.workers = s.workers) s l ev rfl fun _ _ => rfl

@[simp] theorem postEffect_calls (s : Server) (l : Locals) (ev : LoopEv) :
    (s.postEffect l ev).calls = s.calls :=
  @postEffect_induct (fun r => r.calls = s.calls) s l ev rfl fun _ _ => rfl

@[simp] theorem postEffect_poll (s : Server) (l : Locals) (ev : LoopEv) :
    (s.postEffect l ev).poll = s.poll :=
  @postEffect_induct (fun r => r.poll = s.poll) s l ev rfl fun _ _ => rfl

@[simp] theorem postEffect_nextAddr (s : Server) (l : Locals) (ev : LoopEv) :
    (s.postEffect l ev).nextAddr = s.nextAddr :=
  @postEffect_induct (fun r => r.nextAddr = s.nextAddr) s l ev rfl fun _ _ => rfl

/-- A step of the loop changes its client, its thread and, by a post, the database. -/
theorem next_loop {s : Server} {t : Tid} {me : ClientRef} {l : Locals} {ev : LoopEv}
    (hen : s.enabled (.loop t me l ev)) :
    ∃ c l', loopStep (s.clients me, l) ev = some (c, l') ∧
      s.next (.loop t me l ev) = ((s.postEffect l ev).setClient me c).setWorker t (.loop me l') := by
  obtain ⟨-, -, hsome⟩ := hen
  obtain ⟨⟨c, l'⟩, hstep⟩ := Option.isSome_iff_exists.1 hsome
  refine ⟨c, l', hstep, ?_⟩
  simp only [next, hstep]

/-! What a step touches: the place of one thread, one client, one call. -/

/-- The thread whose place in `client_loop` or `remove_client` changes. -/
def thread : Action → Option Tid
  | .accept t _ | .register t _ _ | .announce t _ _ _ | .loop t _ _ _ | .find t _ _
  | .unlist t _ _ | .unmap t _ _ | .lock t _ _ | .unslot t _ _ | .finish t _ _
  | .free t _ _ => some t
  | _ => none

/-- The client that changes. -/
def client (s : Server) : Action → Option ClientRef
  | .register _ _ _ => some s.nextClient
  | .loop _ me _ _ => some me
  | .lock _ _ c | .unslot _ _ c | .pop _ _ c _ _ | .finish _ _ c | .free _ _ c
  | .append _ _ c => some c
  | _ => none

/-- The caller of `push_solution` whose call changes. -/
def caller : Action → Option Who
  | .lock t _ _ | .pop t _ _ _ _ => some (.worker t)
  | .lookup who _ | .noCompiler who _ _ | .choose who _ _ _ | .append who _ _ => some who
  | .dispatch _ _ => some .poll
  | _ => none

theorem workers_other {s s' : Server} {a : Action} {t : Tid} (hs : s.step a = some s')
    (ht : thread a ≠ some t) : s'.workers t = s.workers t := by
  obtain ⟨hen, rfl⟩ := step_some.1 hs
  have hne : ∀ {u : Tid}, thread a = some u → t ≠ u := by
    rintro u hu rfl
    exact ht hu
  cases a with
  | loop u me l ev =>
    obtain ⟨c, l', -, heq⟩ := next_loop hen
    rw [heq, setWorker_other _ _ (hne rfl)]
    exact congrFun (s.postEffect_workers l ev) t
  | submit | lookup | choose =>
    simp only [next]
    split <;> rfl
  | find u me errno =>
    simp only [next]
    split <;> exact setWorker_other _ _ (hne rfl)
  | lock u me c =>
    simp only [next]
    split <;> exact Function.update_of_ne (hne rfl) ..
  | query e ok =>
    obtain ⟨stmt, -, heq⟩ := next_query hen
    rw [heq, afterQuery_workers]
    rfl
  | accept | register | announce | unlist | unmap | unslot | finish | free =>
    exact Function.update_of_ne (hne rfl) ..
  | _ => rfl

theorem clients_other {s s' : Server} {a : Action} {d : ClientRef} (hs : s.step a = some s')
    (hd : s.client a ≠ some d) : s'.clients d = s.clients d := by
  obtain ⟨hen, rfl⟩ := step_some.1 hs
  have hne : ∀ {c : ClientRef}, s.client a = some c → d ≠ c := by
    rintro c hc rfl
    exact hd hc
  cases a with
  | loop u me l ev =>
    obtain ⟨c, l', -, heq⟩ := next_loop hen
    rw [heq]
    change ((s.postEffect l ev).setClient me c).clients d = s.clients d
    rw [setClient_other _ _ (hne rfl), postEffect_clients]
  | submit | find | lookup | choose =>
    simp only [next]
    split <;> rfl
  | lock u me c =>
    simp only [next]
    split <;> exact Function.update_of_ne (hne rfl) ..
  | query e ok =>
    obtain ⟨stmt, -, heq⟩ := next_query hen
    rw [heq, afterQuery_clients]
    rfl
  | register | unslot | pop | finish | free | append => exact Function.update_of_ne (hne rfl) ..
  | _ => rfl

theorem calls_other {s s' : Server} {a : Action} {who : Who} (hs : s.step a = some s')
    (hwho : caller a ≠ some who) : s'.calls who = s.calls who := by
  obtain ⟨hen, rfl⟩ := step_some.1 hs
  have hne : ∀ {w : Who}, caller a = some w → who ≠ w := by
    rintro w hw rfl
    exact hwho hw
  cases a with
  | loop u me l ev =>
    obtain ⟨c, l', -, heq⟩ := next_loop hen
    rw [heq]
    exact congrFun (s.postEffect_calls l ev) who
  | submit | find =>
    simp only [next]
    split <;> rfl
  | lock u me c =>
    simp only [next]
    split
    · exact setCall_other _ _ (hne rfl)
    · rfl
  | lookup | choose =>
    simp only [next]
    split <;> exact setCall_other _ _ (hne rfl)
  | query e ok =>
    obtain ⟨stmt, -, heq⟩ := next_query hen
    rw [heq, afterQuery_calls]
    rfl
  | pop | noCompiler | append | dispatch => exact setCall_other _ _ (hne rfl)
  | _ => rfl

theorem clientsMap_step {s s' : Server} {a : Action} {c : ClientRef} (hs : s.step a = some s')
    (hc : c ∈ s.clientsMap) (hunmap : ∀ t me, a ≠ .unmap t me c) : c ∈ s'.clientsMap := by
  obtain ⟨hen, rfl⟩ := step_some.1 hs
  cases a with
  | register t compilers order => exact mem_rehash.2 (List.mem_cons_of_mem _ hc)
  | unmap t me d =>
    have hd : c ≠ d := by
      rintro rfl
      exact hunmap t me rfl
    exact List.mem_filter.2 ⟨hc, by simpa using hd⟩
  | loop u me l ev =>
    obtain ⟨d, l', -, heq⟩ := next_loop hen
    rw [heq]
    change c ∈ (s.postEffect l ev).clientsMap
    rwa [postEffect_clientsMap]
  | submit | find | lock | lookup | choose =>
    simp only [next]
    split <;> exact hc
  | query e ok =>
    obtain ⟨stmt, -, heq⟩ := next_query hen
    rwa [heq, afterQuery_clientsMap]
  | _ => exact hc

end Server

/-- The reachable states. -/
def Reaches (db : Table) (as : List Action) (s : Server) : Prop := Run Server.step (.init db) as s

/-- The steps of other threads leave a thread where it is. -/
theorem workers_run {s s' : Server} {as : List Action} {t : Tid} (h : Run Server.step s as s')
    (ht : ∀ a ∈ as, Server.thread a ≠ some t) : s'.workers t = s.workers t := by
  induction h with
  | nil => rfl
  | snoc _ hs ih =>
    rw [Server.workers_other hs (ht _ (by simp))]
    exact ih fun a ha => ht a (List.mem_append_left _ ha)

/-! Stretches of runs without interference. -/

/-- A client connects with compiler 5 and becomes object `me`. -/
def joining (t : Tid) (me : ClientRef) : List Action :=
  [.accept t [5], .register t [5] [], .announce t me [5] []]

/-- The connection of client `me` is reset while its loop waits for a result. -/
def resetting (t : Tid) (me : ClientRef) : List Action :=
  [.loop t me ⟨.top, .other 0⟩ (.running true), .loop t me ⟨.process, .other 0⟩ .process,
    .loop t me ⟨.recvLen, .other 0⟩ (.recvLen [.failed .ECONNRESET])]

/-- `remove_client` up to the mutex of the client it has found. -/
def unmapping (t : Tid) (me c : ClientRef) : List Action :=
  [.find t me .ECONNRESET, .unlist t me c, .unmap t me c]

def starting : List Action := [.initDb true, .check, .lockDb]

/-- The extraction of `rows`, all of whose queries succeed. -/
def extracting (rows : List Row) : List Action :=
  [.query .select true, .query (.start rows) true] ++
    rows.tails.dropLast.map (fun todo => .query (.updates rows todo) true) ++
    [.query (.updates rows []) true]

/-- `push_solution` by way of the first compiler to client `c`. -/
def pushing (who : Who) (sln : Solution) (c : ClientRef) : List Action :=
  [.lookup who sln, .choose who sln 0 true, .append who sln c]

end JudgeServer
