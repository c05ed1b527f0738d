import JudgeServer.Client.Silence
import JudgeServer.Server.Durability

/-! Where the contents of the table come from. The server adds and deletes no row and
leaves the submission in a row alone; a verdict in it was reported by a client in a result
packet for this row, or is the FL of a refused solution. -/

namespace JudgeServer

open Transition

/-- The seven bytes of a result: opcode, id, code and test number. -/
def RESULT_LENGTH : ℕ := 7

/-- A thread has received a whole result packet, and this is what its bytes say. -/
def Received (as : List Action) (t : Tid) (me : ClientRef) (id : UInt32) (code test : UInt8) : Prop :=
  ∃ n e arrivals beyond, Action.loop t me ⟨.recvBody n, e⟩ (.recvBody arrivals beyond) ∈ as ∧
    (received arrivals).length = n.toNat ∧ RESULT_LENGTH ≤ n.toNat ∧
      decodePacket (received arrivals) [] = .posting id code test

/-- A client has sent a packet whose bytes are the result for the row. -/
def Reported (as : List Action) (id : UInt32) (accepted : UInt8) (text : List UInt8) : Prop :=
  ∃ t me code test, Received as t me id code test ∧
    postResult id code test = some (.postResult id accepted text)

/-- No client sends a result packet that ends before its fields do. -/
def ResultsWhole (_ : Server) : Action → Prop
  | .loop _ _ ⟨.recvBody n, _⟩ (.recvBody arrivals _) =>
    (received arrivals).length = n.toNat → (received arrivals).head? = some OP_RESULT →
      RESULT_LENGTH ≤ n.toNat
  | _ => True

/-- `push_solution` has found no client for a solution with this id. -/
def Refused (db : Table) (as : List Action) (id : UInt32) : Prop :=
  ∃ pre a post s who sln ok, as = pre ++ a :: post ∧ Reaches db pre s ∧ sln.id = id ∧
    (a = .noCompiler who sln ok ∨ ∃ k, a = .choose who sln k ok ∧ s.chooseFrom k = none)

def Verdict (db : Table) (as : List Action) (id : UInt32) (accepted : UInt8) (text : List UInt8) :
    Prop := Reported as id accepted text ∨ accepted = 0 ∧ text = cstr "FL" ∧ Refused db as id

/-- The rows are one submission, whatever their flag and their verdict. -/
structure Row.SameSubmission (r₀ r : Row) : Prop where
  id : r.id = r₀.id
  userId : r.userId = r₀.userId
  taskId : r.taskId = r₀.taskId
  source : r.source = r₀.source
  compilerId : r.compilerId = r₀.compilerId

/-- What may have become of the row `r₀`. -/
structure ComesFrom (db : Table) (as : List Action) (r₀ r : Row) : Prop where
  submission : r₀.SameSubmission r
  verdict : r.ac = r₀.ac ∧ r.response = r₀.response ∨ Verdict db as r.id r.ac r.response
  checking : r.checking = r₀.checking ∨ r.checking = 1 ∨
    r.checking = 2 ∧ Verdict db as r.id r.ac r.response

/-- The rows that other programs have put in during the run. -/
def submittedBy (as : List Action) : List Row :=
  as.filterMap fun
    | .submit row => some row
    | _ => none

/-- The rows as they were at the start, or when they came in. -/
def originals (db : Table) (as : List Action) : List Row :=
  db.tuples.map Tuple.committed ++ db.tuples.map Tuple.current ++ submittedBy as

/-- Both versions of a row. -/
def Tuple.Every (P : Row → Prop) (t : Tuple) : Prop := P t.committed ∧ P t.current

structure Traced (db : Table) (as : List Action) (s : Server) : Prop where
  ids : s.db.tuples.map Tuple.id = db.tuples.map Tuple.id ++ (submittedBy as).map Row.id
  rows : ∀ t ∈ s.db.tuples, t.Every fun r => ∃ r₀ ∈ originals db as, ComesFrom db as r₀ r

variable {db : Table} {as : List Action} {a : Action} {s s' : Server}

theorem Received.snoc {t : Tid} {me : ClientRef} {id : UInt32} {code test : UInt8}
    (h : Received as t me id code test) (a : Action) : Received (as ++ [a]) t me id code test := by
  obtain ⟨n, e, arrivals, beyond, hmem, hrest⟩ := h
  exact ⟨n, e, arrivals, beyond, List.mem_append_left _ hmem, hrest⟩

theorem Reported.snoc {id : UInt32} {accepted : UInt8} {text : List UInt8}
    (h : Reported as id accepted text) (a : Action) : Reported (as ++ [a]) id accepted text := by
  obtain ⟨t, me, code, test, hreceived, hpost⟩ := h
  exact ⟨t, me, code, test, hreceived.snoc a, hpost⟩

theorem Refused.snoc {id : UInt32} (h : Refused db as id) (a : Action) :
    Refused db (as ++ [a]) id := by
  obtain ⟨pre, b, post, s, who, sln, ok, rfl, hrest⟩ := h
  exact ⟨pre, b, post ++ [a], s, who, sln, ok, by simp, hrest⟩

theorem Verdict.snoc {id : UInt32} {accepted : UInt8} {text : List UInt8}
    (h : Verdict db as id accepted text) (a : Action) : Verdict db (as ++ [a]) id accepted text :=
  h.imp (Reported.snoc · a) fun ⟨hac, htext, href⟩ => ⟨hac, htext, href.snoc a⟩

theorem Row.SameSubmission.refl (r : Row) : r.SameSubmission r := ⟨rfl, rfl, rfl, rfl, rfl⟩

theorem Row.SameSubmission.setChecking {r₀ r : Row} (h : r₀.SameSubmission r) :
    r₀.SameSubmission r.setChecking := ⟨h.id, h.userId, h.taskId, h.source, h.compilerId⟩

theorem Row.SameSubmission.postResult {r₀ r : Row} (h : r₀.SameSubmission r) (accepted : UInt8)
    (text : List UInt8) : r₀.SameSubmission (r.postResult accepted text) :=
  ⟨h.id, h.userId, h.taskId, h.source, h.compilerId⟩

theorem submittedBy_snoc (ha : ∀ row, a ≠ .submit row) : submittedBy (as ++ [a]) = submittedBy as := by
  cases a with
  | submit row => exact absurd rfl (ha row)
  | _ => simp [submittedBy]

theorem originals_snoc {r : Row} (h : r ∈ originals db as) (a : Action) :
    r ∈ originals db (as ++ [a]) := by
  simp only [originals, submittedBy, List.filterMap_append, List.mem_append] at h ⊢
  tauto

namespace ComesFrom

variable {r₀ r : Row}

theorem refl (r : Row) : ComesFrom db as r r :=
  ⟨.refl r, Or.inl ⟨rfl, rfl⟩, Or.inl rfl⟩

theorem snoc (h : ComesFrom db as r₀ r) (a : Action) : ComesFrom db (as ++ [a]) r₀ r :=
  ⟨h.submission, h.verdict.imp_right (Verdict.snoc · a),
    h.checking.imp_right (Or.imp_right (And.imp_right (Verdict.snoc · a)))⟩

theorem setChecking (h : ComesFrom db as r₀ r) : ComesFrom db as r₀ r.setChecking :=
  ⟨h.submission.setChecking, h.verdict, Or.inr (Or.inl rfl)⟩

theorem postResult (h : ComesFrom db as r₀ r) {accepted : UInt8} {text : List UInt8}
    (hv : Verdict db as r.id accepted text) : ComesFrom db as r₀ (r.postResult accepted text) :=
  ⟨h.submission.postResult accepted text, Or.inr hv, Or.inr (Or.inr ⟨rfl, hv⟩)⟩

end ComesFrom

/-! What the steps keep of the rows. -/

theorem Tuple.Every.imp {P Q : Row → Prop} {t : Tuple} (h : t.Every P) (hPQ : ∀ r, P r → Q r) :
    t.Every Q := ⟨hPQ _ h.1, hPQ _ h.2⟩

theorem Tuple.Every.update {P : Row → Prop} {b : Bool} {id : UInt32} {g : Row → Row} {t : Tuple}
    (h : t.Every P) (hg : ∀ r, (g r).id = r.id) (hP : ∀ r, r.id = id → P r → P (g r)) :
    (t.update b id g hg).Every P := by
  unfold Tuple.update
  split_ifs with hid hb
  · exact ⟨h.1, hP _ (t.current_id.trans hid) h.2⟩
  · have hnew := hP _ (t.current_id.trans hid) h.2
    exact ⟨hnew, hnew⟩
  · exact h

theorem Tuple.Every.exec {P : Row → Prop} {b : Bool} {stmt : Stmt} {t : Tuple} (h : t.Every P)
    (hcheck : ∀ r, P r → P r.setChecking)
    (hpost : ∀ accepted text r, stmt = .postResult r.id accepted text → P r →
      P (r.postResult accepted text)) : (t.exec b stmt).Every P := by
  cases stmt with
  | selectNew => exact h
  | startTransaction | commit => exact ⟨h.2, h.2⟩
  | rollback => exact ⟨h.1, h.1⟩
  | setChecking id => exact h.update Row.setChecking_id fun r _ hr => hcheck r hr
  | postResult id accepted text =>
    exact h.update (Row.postResult_id accepted text) fun r hid hr =>
      hpost accepted text r (by rw [hid]) hr

/-- What holds of every row goes on doing so, when the flag, the verdicts that are asked for
and the rows that come in keep to it. -/
theorem rows_step {P : Row → Prop} (hs : s.step a = some s') (h : ∀ t ∈ s.db.tuples, t.Every P)
    (hcheck : ∀ r, P r → P r.setChecking)
    (hpost : ∀ accepted text r, s.asks a = some (.postResult r.id accepted text) → P r →
      P (r.postResult accepted text))
    (hnew : ∀ row, a = .submit row → P row) : ∀ t ∈ s'.db.tuples, t.Every P := by
  cases step_db hs with
  | quiet hask hlog hdb => rwa [hdb]
  | opened ok ha hlog hdb => rwa [hdb]
  | asked stmt hask hlog hdb =>
    rcases query_db_cases s stmt a.outcome with ⟨-, hexec⟩ | ⟨-, hsame⟩
    · intro t ht
      rw [hdb, hexec, Table.exec_tuples] at ht
      obtain ⟨u, hu, rfl⟩ := List.mem_map.1 ht
      exact (h u hu).exec hcheck fun accepted text r hstmt => hpost accepted text r (hstmt ▸ hask)
    · rwa [hdb, hsame]
  | closed ha hlog hdb =>
    intro t ht
    rw [hdb] at ht
    obtain ⟨u, hu, rfl⟩ := List.mem_map.1 ht
    exact ⟨(h u hu).1, (h u hu).1⟩
  | submitted row hfresh ha hlog hdb =>
    intro t ht
    rw [hdb] at ht
    rcases List.mem_append.1 ht with hold | hthis
    · exact h t hold
    · obtain rfl := List.mem_singleton.1 hthis
      exact ⟨hnew row ha, hnew row ha⟩

/-- No row is added or deleted but the ones that come in. -/
theorem ids_step (hs : s.step a = some s')
    (h : s.db.tuples.map Tuple.id = db.tuples.map Tuple.id ++ (submittedBy as).map Row.id) :
    s'.db.tuples.map Tuple.id =
      db.tuples.map Tuple.id ++ (submittedBy (as ++ [a])).map Row.id := by
  cases step_db hs with
  | quiet hask hlog hdb =>
    rw [hdb, submittedBy_snoc, h]
    rintro row rfl
    obtain ⟨hen, rfl⟩ := Server.step_some.1 hs
    simp only [Server.next, dif_pos hen.2] at hdb
    have hlength := congrArg (fun table => table.tuples.length) hdb
    simp [Table.insert] at hlength
  | opened ok ha hlog hdb => rw [hdb, submittedBy_snoc (by simp [ha]), h]
  | asked stmt hask hlog hdb =>
    rw [submittedBy_snoc (by rintro row rfl; cases hask), hdb, ← h]
    rcases query_db_cases s stmt a.outcome with ⟨-, hexec⟩ | ⟨-, hsame⟩
    · rw [hexec, Table.exec_ids]
    · rw [hsame]
  | closed ha hlog hdb =>
    rw [hdb, submittedBy_snoc (by simp [ha]), ← h]
    exact s.db.exec_ids .rollback
  | submitted row hfresh ha hlog hdb =>
    subst ha
    rw [hdb]
    simp [Table.insert, submittedBy, h]

/-- A thread that posts a result has received it. -/
def Posting (as : List Action) (s : Server) : Prop :=
  ∀ t me id code test e, s.workers t = .loop me ⟨.posting id code test, e⟩ →
    Received as t me id code test

theorem decodePacket_opcode {pkt beyond : List UInt8} {id : UInt32} {code test : UInt8}
    (h : decodePacket pkt beyond = .posting id code test) : pkt.head? = some OP_RESULT := by
  unfold decodePacket at h
  split_ifs at h with hempty hop
  obtain ⟨op, rest, rfl⟩ := List.exists_cons_of_ne_nil hempty
  exact congrArg some hop

/-- From a packet that is long enough nothing behind it is read. -/
theorem decodePacket_whole {pkt : List UInt8} (beyond : List UInt8)
    (h : RESULT_LENGTH ≤ pkt.length) : decodePacket pkt beyond = decodePacket pkt [] := by
  have hget : ∀ i < RESULT_LENGTH, (pkt ++ beyond).getD i 0 = (pkt ++ []).getD i 0 := by
    intro i hi
    rw [List.append_nil, List.getD_eq_getElem?_getD, List.getD_eq_getElem?_getD,
      List.getElem?_append_left (hi.trans_le h)]
  have hlt : ∀ i, i < 7 → i < RESULT_LENGTH := fun _ hi => hi
  simp only [decodePacket, readBe32]
  rw [hget 0 (hlt _ (by omega)), hget 1 (hlt _ (by omega)), hget (1 + 1) (hlt _ (by omega)),
    hget (1 + 2) (hlt _ (by omega)), hget (1 + 3) (hlt _ (by omega)), hget 5 (hlt _ (by omega)),
    hget 6 (hlt _ (by omega))]

theorem loop_posting {x y : Client × Locals} {ev : LoopEv} (h : loopStep x ev = some y) {id : UInt32}
    {code test : UInt8} (hy : y.2.pc = .posting id code test) :
    x.2.pc = .posting id code test ∨ ∃ n arrivals beyond, x.2.pc = .recvBody n ∧
      ev = .recvBody arrivals beyond ∧ (received arrivals).length = n.toNat ∧
        decodePacket (received arrivals) beyond = .posting id code test := by
  obtain ⟨c, l⟩ := x
  cases loopStep_rule h with
  | push | errno => exact Or.inl hy
  | @running e b => cases b <;> cases hy
  | idle | pop | post | clear => cases hy
  | send hsend =>
    simp only [afterSend] at hy
    split at hy
    · cases hy
    · split_ifs at hy
  | recvLen hrecv =>
    simp only [afterRecvLen] at hy
    split_ifs at hy
  | @recvBody e n arrivals beyond t hrecv =>
    right
    simp only [afterRecvBody] at hy
    split_ifs at hy with hbroken
    refine ⟨n, arrivals, beyond, rfl, rfl, ?_, hy⟩
    have hn : n.toUInt32.toNat = n.toNat := UInt16.toNat_toUInt32 n
    have hends := recvAll_ends hrecv
    generalize n.toUInt32.toNat = m at hn hends
    cases hends with
    | complete hlen => rw [hlen, hn]
    | closed hlen | failed hlen =>
      dsimp only at hbroken
      omega

theorem Posting.step (h : Posting as s) (hwhole : ResultsWhole s a) (hs : s.step a = some s') :
    Posting (as ++ [a]) s' := by
  intro t me id code test e hw
  have hold : ∀ {e'}, s.workers t = .loop me ⟨.posting id code test, e'⟩ →
      Received (as ++ [a]) t me id code test := fun hw' => (h t me id code test _ hw').snoc a
  by_cases ht : Server.thread a = some t
  swap
  · rw [Server.workers_other hs ht] at hw
    exact hold hw
  obtain ⟨hen, rfl⟩ := Server.step_some.1 hs
  cases a with
  | loop u me' l ev =>
    obtain rfl := Option.some.inj ht
    obtain ⟨c, l', hstep, heq⟩ := Server.next_loop hen
    rw [heq, Server.setWorker_same] at hw
    obtain ⟨rfl, rfl⟩ := WorkerPc.loop.inj hw
    obtain ⟨pc, e'⟩ := l
    rcases loop_posting hstep rfl with hpc | ⟨n, arrivals, beyond, hpc, rfl, hlen, hdecode⟩
    · obtain rfl : pc = .posting id code test := hpc
      exact hold hen.1
    · obtain rfl : pc = .recvBody n := hpc
      have hn : RESULT_LENGTH ≤ n.toNat := hwhole hlen (decodePacket_opcode hdecode)
      refine ⟨n, e', arrivals, beyond, by simp, hlen, hn, ?_⟩
      rwa [← decodePacket_whole beyond (hlen ▸ hn)]
  | find u me' errno =>
    obtain rfl := Option.some.inj ht
    simp only [Server.next] at hw
    split at hw <;> simp [Server.setWorker] at hw
  | lock u me' d =>
    obtain rfl := Option.some.inj ht
    simp only [Server.next] at hw
    split at hw <;> simp [Server.setWorker, Server.setCall, Server.setClient] at hw
  | accept | register | announce | unlist | unmap | unslot | finish | free =>
    obtain rfl := Option.some.inj ht
    simp [Server.next, Server.setWorker] at hw
  | _ => cases ht

/-- The statement is about the row of the packet. -/
theorem postResult_id {id id' : UInt32} {code test accepted : UInt8} {text : List UInt8}
    (h : postResult id code test = some (.postResult id' accepted text)) : id = id' := by
  simp only [postResult] at h
  split at h <;> first | exact (Stmt.postResult.inj (Option.some.inj h)).1 | cases h

/-- A verdict that is asked for was reported, or stands for a refusal. -/
theorem Posting.verdict (h : Posting as s) (hr : Reaches db as s) (hs : s.step a = some s')
    {id : UInt32} {accepted : UInt8} {text : List UInt8}
    (hask : s.asks a = some (.postResult id accepted text)) :
    Verdict db (as ++ [a]) id accepted text := by
  have hrefused : ∀ sln : Solution, some (Stmt.postResult sln.id 0 (cstr "FL")) =
      some (.postResult id accepted text) → (∃ who ok, a = .noCompiler who sln ok ∨
        ∃ k, a = .choose who sln k ok ∧ s.chooseFrom k = none) →
      Verdict db (as ++ [a]) id accepted text := by
    rintro sln heq ⟨who, ok, ha⟩
    obtain ⟨rfl, rfl, rfl⟩ := Stmt.postResult.inj (Option.some.inj heq)
    exact Or.inr ⟨rfl, rfl, as, a, [], s, who, sln, ok, rfl, hr, rfl, ha⟩
  obtain ⟨hen, -⟩ := Server.step_some.1 hs
  cases a with
  | loop t me l ev =>
    cases ev with
    | post ok =>
      obtain ⟨pc, e⟩ := l
      cases pc with
      | posting id' code test =>
        left
        have hreceived := h t me id' code test e hen.1
        obtain rfl := postResult_id hask
        exact ⟨t, me, code, test, hreceived.snoc _, hask⟩
      | _ => cases hask
    | _ => cases hask
  | noCompiler who sln ok => exact hrefused sln hask ⟨who, ok, Or.inl rfl⟩
  | choose who sln k ok =>
    simp only [Server.asks] at hask
    split_ifs at hask with hnone
    exact hrefused sln hask ⟨who, ok, Or.inr ⟨k, rfl, hnone⟩⟩
  | query e ok =>
    rw [Server.asks] at hask
    cases e with
    | updates rows todo => cases todo <;> cases hask
    | _ => cases hask
  | _ => cases hask

theorem Traced.step (h : Traced db as s) (hp : Posting as s) (hr : Reaches db as s)
    (hs : s.step a = some s') : Traced db (as ++ [a]) s' := by
  refine ⟨ids_step hs h.ids, rows_step hs (fun t ht => (h.rows t ht).imp ?_) ?_ ?_ ?_⟩
  · rintro r ⟨r₀, hmem, hfrom⟩
    exact ⟨r₀, originals_snoc hmem a, hfrom.snoc a⟩
  · rintro r ⟨r₀, hmem, hfrom⟩
    exact ⟨r₀, hmem, hfrom.setChecking⟩
  · rintro accepted text r hask ⟨r₀, hmem, hfrom⟩
    exact ⟨r₀, hmem, hfrom.postResult (hp.verdict hr hs hask)⟩
  · rintro row rfl
    exact ⟨row, by simp [originals, submittedBy], .refl row⟩

theorem originals_init {t : Tuple} (ht : t ∈ db.tuples) : t.Every (· ∈ originals db []) :=
  ⟨List.mem_append_left _ (List.mem_append_left _ (List.mem_map_of_mem ht)),
    List.mem_append_left _ (List.mem_append_right _ (List.mem_map_of_mem ht))⟩

theorem reaches_traced (h : Reaches db as s)
    (hwhole : Along Server.step (.init db) as ResultsWhole) : Traced db as s ∧ Posting as s := by
  induction h with
  | nil =>
    refine ⟨⟨by simp [submittedBy, Server.init], fun t ht => ?_⟩, by simp [Posting, Server.init]⟩
    exact (originals_init ht).imp fun r hr => ⟨r, hr, .refl r⟩
  | snoc hr hs ih =>
    obtain ⟨hbefore, hlast⟩ := (along_snoc hr).1 hwhole
    obtain ⟨ht, hp⟩ := ih hbefore
    exact ⟨ht.step hp hr hs, hp.step hlast hs⟩

/-- In every run whose result packets are whole. -/
theorem table_traced (db : Table) (as : List Action) (s : Server) (h : Reaches db as s)
    (hwhole : Along Server.step (.init db) as ResultsWhole) : Traced db as s :=
  (reaches_traced h hwhole).1

/-- The verdict of row 1 is the one of the packet. -/
theorem table_traced_judged : ∃ s, Reaches oneNewRow judgedRun s ∧
    s.db.tuples.map (fun t => (t.id, t.current.ac, t.current.response)) = [(1, 1, cstr "AC")] ∧
    Traced oneNewRow judgedRun s := by
  have hrun : Reaches oneNewRow judgedRun _ := Run.iff_foldlM.2 rfl
  refine ⟨_, hrun, rfl, table_traced oneNewRow judgedRun _ hrun (along_of_forall fun a ha s => ?_)⟩
  fin_cases ha <;> first | trivial | exact fun _ _ => le_rfl

end JudgeServer
