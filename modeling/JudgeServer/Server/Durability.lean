import JudgeServer.Server.Connection
import JudgeServer.Server.Dispatch

/-! Posted verdicts and the transaction of the extraction. All statements share one
connection, so what a client thread posts between 'start transaction' and a rollback is
undone with it. `post_result` keeps out by `db_mutex`; the FL result that
`remove_client` causes does not. -/

namespace JudgeServer

open Transition Placement

/-- The query has set the row of `id` to a verdict. -/
def Query.Posts (q : Query) (id : UInt32) : Prop :=
  q.ok = true ∧ q.found = true ∧ ∃ accepted text, q.stmt = .postResult id accepted text

def Server.Posted (s : Server) (id : UInt32) : Prop := ∃ q ∈ s.log, q.Posts id

/-- Every row that has been set to a verdict is at `checking = 2`. -/
def VerdictsKept (s : Server) : Prop := ∀ id, s.Posted id → Judged s.db id

/-- Between 'start transaction' and the commit or rollback. -/
def ExtractPc.InTransaction : ExtractPc → Prop
  | .updates _ _ => True
  | .rollback _ => True
  | _ => False

def PollPc.InTransaction (pc : PollPc) : Prop := ∃ e, pc = .extract e ∧ e.InTransaction

/-- No client thread posts an FL result into the transaction of an extraction, and the
connection is not closed with a transaction left open. -/
def KeepsVerdicts (s : Server) : Action → Prop
  | .noCompiler (.worker _) _ _ => ¬ s.poll.InTransaction
  | .choose (.worker _) _ k _ => s.chooseFrom k = none → ¬ s.poll.InTransaction
  | .closeDb => s.db.inTransaction = false
  | _ => True

/-- What the extraction relies on before each of its queries. -/
def Extracting (s : Server) : ExtractPc → Prop
  | .start rows => ∀ row ∈ rows, s.db.has row.id = true ∧ s.db.AllId row.id (·.current.checking = 0)
  | .updates rows todo => todo ⊆ rows ∧
      (∀ id, s.Posted id → s.db.AllId id (·.committed.checking = 2)) ∧
      ∀ row ∈ rows, s.db.has row.id = true ∧ ¬ s.Posted row.id ∧
        (row ∈ todo ∨ s.db.AllId row.id (·.current.checking ≠ 0))
  | .rollback _ => ∀ id, s.Posted id → s.db.AllId id (·.committed.checking = 2)
  | _ => True

/-- Not new, and durably so. -/
def Tuple.Taken (t : Tuple) : Prop := t.current.checking ≠ 0 ∧ t.committed.checking ≠ 0

/-- Rows with a verdict stay at 2, and rows whose solutions have been handed out are
never selected again. -/
structure Durable (s : Server) : Prop where
  posted : ∀ id, s.Posted id → s.db.has id = true ∧ s.db.AllId id (·.current.checking = 2)
  dispatched : ∀ r, ∀ sln ∈ s.holds r, s.db.has sln.id = true ∧ s.db.AllId sln.id Tuple.Taken
  extracting : ∀ e, s.poll = .extract e → Extracting s e

/-! Single rows. -/

theorem Tuple.update_cases (b : Bool) (id : UInt32) (g : Row → Row) (hg : ∀ r, (g r).id = r.id)
    (t : Tuple) : t.update b id g hg = t ∨ t.id = id ∧ (t.update b id g hg).current = g t.current ∧
      ((t.update b id g hg).committed = t.committed ∨
        (t.update b id g hg).committed = g t.current) := by
  unfold Tuple.update
  split_ifs with hid hb
  · exact Or.inr ⟨hid, rfl, Or.inl rfl⟩
  · exact Or.inr ⟨hid, rfl, Or.inr rfl⟩
  · exact Or.inl rfl

/-- Only the two statements of an extraction could take a verdict away. -/
theorem Tuple.exec_two {b : Bool} {stmt : Stmt} {t : Tuple} (h : t.current.checking = 2)
    (hset : stmt ≠ .setChecking t.id) (hback : stmt = .rollback → t.committed.checking = 2) :
    (t.exec b stmt).current.checking = 2 := by
  cases stmt with
  | setChecking id =>
    have hid : t.id ≠ id := fun heq => hset (by rw [heq])
    simpa only [Tuple.exec, Tuple.update_of_ne hid] using h
  | postResult id accepted text =>
    simp only [Tuple.exec]
    rcases t.update_cases b id (Row.postResult accepted text) (Row.postResult_id accepted text) with
      heq | ⟨-, hcurrent, -⟩
    · rw [heq, h]
    · rw [hcurrent, Row.postResult_checking]
  | rollback => exact hback rfl
  | _ => exact h

theorem Tuple.exec_taken {b : Bool} {stmt : Stmt} {t : Tuple} (h : t.Taken) :
    (t.exec b stmt).Taken := by
  have hupdate : ∀ id g hg, (∀ r, (g r : Row).checking ≠ 0) → (t.update b id g hg).Taken := by
    intro id g hg hne
    rcases t.update_cases b id g hg with heq | ⟨-, hcurrent, hcommitted | hcommitted⟩
    · rwa [heq]
    · exact ⟨by rw [hcurrent]; exact hne _, by rw [hcommitted]; exact h.2⟩
    · exact ⟨by rw [hcurrent]; exact hne _, by rw [hcommitted]; exact hne _⟩
  cases stmt with
  | setChecking id => exact hupdate id _ Row.setChecking_id fun r => by simp
  | postResult id accepted text =>
    exact hupdate id _ (Row.postResult_id accepted text) fun r => by simp
  | selectNew => exact h
  | startTransaction => exact ⟨h.1, h.1⟩
  | commit => exact ⟨h.1, h.1⟩
  | rollback => exact ⟨h.2, h.2⟩

/-! The log. -/

theorem posted_congr {s s' : Server} (hlog : s'.log = s.log) (id : UInt32) :
    s'.Posted id ↔ s.Posted id := by
  unfold Server.Posted
  rw [hlog]

theorem posted_query {s s' : Server} {stmt : Stmt} {ok : Bool}
    (hlog : s'.log = (s.query stmt ok).log) (id : UInt32) :
    s'.Posted id ↔ s.Posted id ∨ ((ok && s.conn = .open) = true ∧ s.db.has id = true ∧
      ∃ accepted text, stmt = .postResult id accepted text) := by
  unfold Server.Posted Query.Posts
  rw [hlog]
  simp only [Server.query, List.mem_cons, exists_eq_or_imp]
  rw [or_comm]
  refine or_congr Iff.rfl ⟨?_, ?_⟩
  · rintro ⟨hok, hfound, accepted, text, rfl⟩
    exact ⟨hok, hfound, accepted, text, rfl⟩
  · rintro ⟨hok, hhas, accepted, text, rfl⟩
    exact ⟨hok, hhas, accepted, text, rfl⟩

/-- A statement that posts nothing leaves the set of posted ids alone. -/
theorem posted_query_other {s s' : Server} {stmt : Stmt} {ok : Bool}
    (hlog : s'.log = (s.query stmt ok).log)
    (hstmt : ∀ id accepted text, stmt ≠ .postResult id accepted text) (id : UInt32) :
    s'.Posted id ↔ s.Posted id := by
  rw [posted_query hlog, or_iff_left]
  rintro ⟨-, -, accepted, text, heq⟩
  exact hstmt id accepted text heq

theorem query_db_cases (s : Server) (stmt : Stmt) (ok : Bool) :
    (ok && s.conn = .open) = true ∧ (s.query stmt ok).db = s.db.exec stmt ∨
      (ok && s.conn = .open) = false ∧ (s.query stmt ok).db = s.db := by
  unfold Server.query
  cases (ok && s.conn = .open : Bool) <;> simp

/-! Steps. -/

/-- A step that asks is a query of the extraction, or it posts; then nobody extracts,
or what it posts is the FL result of a solution in hand, outside of a transaction. -/
theorem asks_cases {s s' : Server} {a : Action} {stmt : Stmt} (hp : Polled s)
    (hs : s.step a = some s') (hk : KeepsVerdicts s a) (hask : s.asks a = some stmt) :
    (∃ e ok, a = .query e ok ∧ s.poll = .extract e ∧ e.stmt = some stmt) ∨
      (∀ e ok, a ≠ .query e ok) ∧ ∃ id accepted text, stmt = .postResult id accepted text ∧
        ((∀ e, s.poll ≠ .extract e) ∨
          ¬ s.poll.InTransaction ∧ ∃ r, ∃ sln ∈ s.holds r, sln.id = id) := by
  obtain ⟨hen, -⟩ := Server.step_some.1 hs
  have hcall : ∀ {who : Who} {sln : Solution} {pc : PushPc}, s.calls who = some ⟨sln, pc⟩ →
      (∀ t, who = .worker t → ¬ s.poll.InTransaction) →
      (∀ e, s.poll ≠ .extract e) ∨
        ¬ s.poll.InTransaction ∧ ∃ r, ∃ x ∈ s.holds r, x.id = sln.id := by
    intro who sln pc hwho hout
    cases who with
    | poll =>
      left
      intro e he
      obtain ⟨rest, hrest⟩ := hp.dispatching (by simp [hwho])
      rw [hrest] at he
      cases he
    | worker t => exact Or.inr ⟨hout t rfl, .hand (.worker t), sln, by simp [Server.holds, hwho], rfl⟩
  cases a with
  | loop t me l ev =>
    cases ev with
    | post ok =>
      right
      refine ⟨by simp, ?_⟩
      simp only [Server.asks] at hask
      split at hask
      · rename_i id code test hpc
        rcases postResult_cases id code test with ⟨-, accepted, text, hpost⟩ | ⟨-, hnone⟩
        · rw [hpost] at hask
          refine ⟨id, accepted, text, (Option.some.inj hask).symm, Or.inl fun e he => ?_⟩
          have hmutex := hp.mutex_iff.2 ⟨e, he⟩
          simp [Server.enabled, Server.admits, hmutex] at hen
        · rw [hnone] at hask
          cases hask
      · cases hask
    | _ => cases hask
  | noCompiler who sln ok =>
    right
    refine ⟨by simp, sln.id, 0, cstr "FL", (Option.some.inj hask).symm, ?_⟩
    refine hcall hen fun t ht => ?_
    subst ht
    exact hk
  | choose who sln k ok =>
    right
    simp only [Server.asks] at hask
    split_ifs at hask with hnone
    refine ⟨by simp, sln.id, 0, cstr "FL", (Option.some.inj hask).symm, ?_⟩
    refine hcall hen fun t ht => ?_
    subst ht
    exact hk hnone
  | query e ok => exact Or.inl ⟨e, ok, rfl, hen.1, hask⟩
  | _ => cases hask

/-- The polling thread extracts after a step: it has gone on from a query, or has just
begun, or stands where it stood. -/
theorem extract_step {s s' : Server} {a : Action} {e' : ExtractPc} (hs : s.step a = some s')
    (hext : s'.poll = .extract e') :
    (∃ e ok stmt, a = .query e ok ∧ e.stmt = some stmt ∧
        e' = e.next (ok && s.conn = .open) (s.query stmt ok).db) ∨
      e' = .select ∨ s.poll = .extract e' ∧ ∀ e ok, a ≠ .query e ok := by
  obtain ⟨hen, rfl⟩ := Server.step_some.1 hs
  cases a with
  | query e ok =>
    obtain ⟨stmt, hstmt, heq⟩ := Server.next_query hen
    rw [heq] at hext
    refine Or.inl ⟨e, ok, stmt, rfl, hstmt, ?_⟩
    unfold Server.afterQuery at hext
    split at hext
    · split_ifs at hext
    · exact (PollPc.extract.inj hext).symm
  | lockDb => exact Or.inr (Or.inl (PollPc.extract.inj hext).symm)
  | loop t me l ev =>
    obtain ⟨c, l', -, heq⟩ := Server.next_loop hen
    rw [heq] at hext
    exact Or.inr (Or.inr ⟨(s.postEffect_poll l ev).symm.trans hext, by simp⟩)
  | submit | find | lock | lookup | choose =>
    refine Or.inr (Or.inr ⟨?_, by simp⟩)
    simp only [Server.next] at hext
    split at hext <;> exact hext
  | initDb ok => cases ok <;> cases hext
  | check =>
    simp only [Server.next] at hext
    split_ifs at hext
  | again => cases hext
  | dispatch => cases hext
  | closeDb => cases hext
  | _ => exact Or.inr (Or.inr ⟨hext, by simp⟩)

/-- Neither statement of an extraction that could take a verdict away meets a row with
a verdict. -/
theorem asked_spares {s s' : Server} {a : Action} {stmt : Stmt} {id : UInt32} (hp : Polled s)
    (h : Durable s) (hs : s.step a = some s') (hk : KeepsVerdicts s a)
    (hask : s.asks a = some stmt) (hid : s.Posted id) :
    stmt ≠ .setChecking id ∧ (stmt = .rollback → s.db.AllId id (·.committed.checking = 2)) := by
  rcases asks_cases hp hs hk hask with ⟨e, ok, -, hext, hstmt⟩ | ⟨-, _, _, _, rfl, -⟩
  · have hinv := h.extracting e hext
    cases e with
    | select =>
      obtain rfl := Option.some.inj hstmt
      simp
    | start rows =>
      obtain rfl := Option.some.inj hstmt
      simp
    | updates rows todo =>
      cases todo with
      | nil =>
        obtain rfl := Option.some.inj hstmt
        simp
      | cons row todo =>
        obtain rfl := Option.some.inj hstmt
        obtain ⟨hsub, -, hrows⟩ := hinv
        refine ⟨fun heq => ?_, by simp⟩
        rw [← Stmt.setChecking.inj heq] at hid
        exact (hrows row (hsub List.mem_cons_self)).2.1 hid
    | rollback rows => exact ⟨by obtain rfl := Option.some.inj hstmt; simp, fun _ => hinv id hid⟩
    | ret code rows => cases hstmt
  · simp

theorem step_posted {s s' : Server} {a : Action} (hp : Polled s) (h : Durable s)
    (hs : s.step a = some s') (hk : KeepsVerdicts s a) (id : UInt32) (hid : s'.Posted id) :
    s'.db.has id = true ∧ s'.db.AllId id (·.current.checking = 2) := by
  cases step_db hs with
  | quiet hask hlog hdb =>
    rw [hdb]
    exact h.posted id ((posted_congr hlog id).1 hid)
  | opened ok ha hlog hdb =>
    rw [hdb]
    exact h.posted id ((posted_congr hlog id).1 hid)
  | submitted row hnew ha hlog hdb =>
    obtain ⟨hhas, hall⟩ := h.posted id ((posted_congr hlog id).1 hid)
    rw [hdb]
    exact ⟨Table.has_insert hhas hnew, hall.insert hhas hnew⟩
  | closed ha hlog hdb =>
    subst ha
    obtain ⟨hhas, hall⟩ := h.posted id ((posted_congr hlog id).1 hid)
    have hcommitted : s.db.AllId id (·.committed.checking = 2) := by
      intro t ht htid
      rw [← s.db.settled hk t ht]
      exact hall t ht htid
    have hback : (s.db.exec .rollback).AllId id (·.current.checking = 2) :=
      hcommitted.exec fun t _ ht => ht
    rw [hdb]
    exact ⟨(s.db.has_exec .rollback id).trans hhas, hback⟩
  | asked stmt hask hlog hdb =>
    rw [hdb]
    rcases (posted_query hlog id).1 hid with hold | ⟨hdone, hhas, accepted, text, rfl⟩
    · obtain ⟨hhas, hall⟩ := h.posted id hold
      obtain ⟨hset, hback⟩ := asked_spares hp h hs hk hask hold
      rcases query_db_cases s stmt a.outcome with ⟨-, hexec⟩ | ⟨-, hsame⟩
      · rw [hexec, Table.has_exec]
        have hboth : s.db.AllId id fun t =>
            t.current.checking = 2 ∧ (stmt = .rollback → t.committed.checking = 2) :=
          fun t ht htid => ⟨hall t ht htid, fun heq => hback heq t ht htid⟩
        refine ⟨hhas, hboth.exec fun t htid ht => Tuple.exec_two ht.1 ?_ ht.2⟩
        rwa [htid]
      · rw [hsame]
        exact ⟨hhas, hall⟩
    · rcases query_db_cases s (.postResult id accepted text) a.outcome with ⟨-, hexec⟩ | ⟨hnot, -⟩
      · rw [hexec, Table.has_exec]
        have hany : s.db.AllId id fun _ => True := fun _ _ _ => trivial
        refine ⟨hhas, hany.exec fun t htid _ => ?_⟩
        simp only [Tuple.exec, Tuple.update_current htid, Row.postResult_checking]
      · rw [hnot] at hdone
        cases hdone

/-- A row that has been taken stays so, whatever happens. -/
theorem taken_step {s s' : Server} {a : Action} {id : UInt32} (hs : s.step a = some s')
    (hhas : s.db.has id = true) (hall : s.db.AllId id Tuple.Taken) :
    s'.db.has id = true ∧ s'.db.AllId id Tuple.Taken := by
  have hexec : ∀ stmt, (s.db.exec stmt).has id = true ∧ (s.db.exec stmt).AllId id Tuple.Taken :=
    fun stmt => ⟨(s.db.has_exec stmt id).trans hhas, hall.exec fun t _ ht => Tuple.exec_taken ht⟩
  cases step_db hs with
  | quiet _ _ hdb => exact hdb ▸ ⟨hhas, hall⟩
  | opened _ _ _ hdb => exact hdb ▸ ⟨hhas, hall⟩
  | submitted row hnew _ _ hdb => exact hdb ▸ ⟨Table.has_insert hhas hnew, hall.insert hhas hnew⟩
  | closed _ _ hdb => exact hdb ▸ hexec .rollback
  | asked stmt _ _ hdb =>
    rw [hdb]
    rcases query_db_cases s stmt a.outcome with ⟨-, heq⟩ | ⟨-, heq⟩
    · exact heq ▸ hexec stmt
    · exact heq ▸ ⟨hhas, hall⟩

/-- Solutions are handed out after a commit that has succeeded. -/
theorem issues_cases {s : Server} {a : Action} {sln : Solution} (h : sln ∈ s.issues a) :
    ∃ rows ok, a = .query (.updates rows []) ok ∧ (ok && s.conn = .open) = true ∧
      ∃ row ∈ rows, row.id = sln.id := by
  unfold Server.issues at h
  split at h
  · rename_i e ok
    split at h
    · rename_i stmt hstmt
      split at h
      · rename_i code rows hnext
        by_cases hcode : code = 0
        swap
        · rw [if_neg hcode] at h
          cases h
        rw [if_pos hcode] at h
        subst hcode
        have hid : sln.id ∈ rows.map Row.id := by
          rw [← decodeRows_ids s.nextAddr rows]
          exact List.mem_map_of_mem h
        cases e with
        | select =>
          simp only [ExtractPc.next] at hnext
          split_ifs at hnext <;> obtain ⟨hret, rfl⟩ := ExtractPc.ret.inj hnext
          all_goals simp at hid
        | start rows' =>
          simp only [ExtractPc.next] at hnext
          split_ifs at hnext
          have hret := (ExtractPc.ret.inj hnext).1
          simp [ERR_DB] at hret
        | updates rows' todo =>
          cases todo with
          | nil =>
            simp only [ExtractPc.next] at hnext
            obtain ⟨hret, rfl⟩ := ExtractPc.ret.inj hnext
            split_ifs at hret with hok
            · exact ⟨rows', ok, rfl, hok, List.mem_map.1 hid⟩
            · simp [ERR_DB] at hret
          | cons row todo =>
            simp only [ExtractPc.next] at hnext
            split_ifs at hnext
        | rollback rows' =>
          have hret := (ExtractPc.ret.inj hnext).1
          simp [ERR_DB] at hret
        | ret code rows' => cases hstmt
      · cases h
    · cases h
  · cases h

theorem step_taken {s s' : Server} {a : Action} (hg : Guarded s) (h : Durable s)
    (hs : s.step a = some s') (r : Place) (sln : Solution) (hsln : sln ∈ s'.holds r) :
    s'.db.has sln.id = true ∧ s'.db.AllId sln.id Tuple.Taken := by
  rcases (step_shift hg hs).mem hsln with ⟨q, hq⟩ | hnew
  · obtain ⟨hhas, hall⟩ := h.dispatched q sln hq
    exact taken_step hs hhas hall
  · obtain ⟨rows, ok, rfl, hdone, row, hrow, hid⟩ := issues_cases hnew
    obtain ⟨hen, rfl⟩ := Server.step_some.1 hs
    obtain ⟨-, -, hrows⟩ := h.extracting _ hen.1
    obtain ⟨hhas, -, hmem | hall⟩ := hrows row hrow
    · cases hmem
    obtain ⟨stmt, hstmt, heq⟩ := Server.next_query hen
    obtain rfl := Option.some.inj hstmt
    rw [heq, Server.afterQuery_db, ← hid]
    rcases query_db_cases s .commit ok with ⟨-, hexec⟩ | ⟨hnot, -⟩
    · rw [hexec, Table.has_exec]
      exact ⟨hhas, hall.exec fun t _ ht => ⟨ht, ht⟩⟩
    · rw [hnot] at hdone
      cases hdone

theorem Extracting.congr {s s' : Server} {e : ExtractPc} (h : Extracting s e)
    (hlog : s'.log = s.log) (hdb : s'.db = s.db) : Extracting s' e := by
  unfold Extracting at h ⊢
  simp only [posted_congr hlog, hdb]
  exact h

/-- The polling thread goes on from a query of its extraction. -/
theorem extracting_query {s s' : Server} {e : ExtractPc} {ok : Bool} {stmt : Stmt}
    (h : Durable s) (hext : s.poll = .extract e) (hstmt : e.stmt = some stmt)
    (hlog : s'.log = (s.query stmt ok).log) (hdb : s'.db = (s.query stmt ok).db) :
    Extracting s' (e.next (ok && s.conn = .open) (s.query stmt ok).db) := by
  have hinv := h.extracting e hext
  have hquery := query_db_cases s stmt ok
  rw [← hdb] at hquery ⊢
  cases e with
  | select =>
    obtain rfl := Option.some.inj hstmt
    simp only [ExtractPc.next]
    split_ifs
    · trivial
    · trivial
    · trivial
    · intro row hrow
      obtain ⟨t, ht, rfl, h0⟩ := Table.mem_newRows.1 hrow
      refine ⟨Table.has_iff.2 ⟨t, ht, t.current_id.symm⟩, fun u hu hid => ?_⟩
      rwa [Table.eq_of_id hu ht (hid.trans t.current_id)]
  | start rows =>
    obtain rfl := Option.some.inj hstmt
    simp only [ExtractPc.next]
    rcases hquery with ⟨hdone, hexec⟩ | ⟨hnot, -⟩
    · rw [if_pos hdone]
      have hposted := posted_query_other hlog (by simp)
      refine ⟨fun _ hrow => hrow, fun id hid => ?_, fun row hrow => ?_⟩
      · rw [hexec]
        exact (h.posted id ((hposted id).1 hid)).2.exec fun t _ ht => ht
      · obtain ⟨hhas, hnew⟩ := hinv row hrow
        refine ⟨by rw [hexec, Table.has_exec, hhas], fun hid => ?_, Or.inl hrow⟩
        -- a new row has no verdict
        obtain ⟨t, ht, htid⟩ := Table.has_iff.1 hhas
        have htwo : t.current.checking = 2 :=
          (h.posted row.id ((hposted row.id).1 hid)).2 t ht htid
        have hzero : t.current.checking = 0 := hnew t ht htid
        rw [hzero] at htwo
        exact absurd htwo (by decide)
    · rw [if_neg (by simp [hnot])]
      trivial
  | updates rows todo =>
    obtain ⟨hsub, hcommitted, hrows⟩ := hinv
    cases todo with
    | nil => trivial
    | cons row todo =>
      obtain rfl := Option.some.inj hstmt
      have hposted := posted_query_other hlog (by simp)
      simp only [ExtractPc.next]
      rcases hquery with ⟨hdone, hexec⟩ | ⟨hnot, hsame⟩
      · rw [if_pos hdone]
        refine ⟨fun x hx => hsub (List.mem_cons_of_mem row hx), fun id hid => ?_, fun x hx => ?_⟩
        · rw [hposted] at hid
          have hne : id ≠ row.id := by
            rintro rfl
            exact (hrows row (hsub List.mem_cons_self)).2.1 hid
          rw [hexec]
          refine (hcommitted id hid).exec fun t htid ht => ?_
          rwa [Tuple.exec, Tuple.update_of_ne (by rw [htid]; exact hne)]
        · obtain ⟨hhas, hnot, hstate⟩ := hrows x hx
          refine ⟨by rw [hexec, Table.has_exec, hhas], by rwa [hposted], ?_⟩
          have hone : x.id = row.id → s'.db.AllId x.id (·.current.checking ≠ 0) := by
            intro heq
            have hany : s.db.AllId x.id fun _ => True := fun _ _ _ => trivial
            rw [hexec]
            refine hany.exec fun t htid _ => ?_
            rw [Tuple.exec, Tuple.update_current (htid.trans heq), Row.setChecking_checking]
            decide
          rcases hstate with hmem | hall
          · rcases List.mem_cons.1 hmem with rfl | hmem
            · exact Or.inr (hone rfl)
            · exact Or.inl hmem
          · by_cases heq : x.id = row.id
            · exact Or.inr (hone heq)
            · right
              rw [hexec]
              refine hall.exec fun t htid ht => ?_
              rwa [Tuple.exec, Tuple.update_of_ne (by rw [htid]; exact heq)]
      · rw [if_neg (by simp [hnot])]
        intro id hid
        rw [hsame]
        exact hcommitted id ((hposted id).1 hid)
  | rollback rows => trivial
  | ret code rows => cases hstmt

theorem step_extracting {s s' : Server} {a : Action} (hp : Polled s) (h : Durable s)
    (hs : s.step a = some s') (hk : KeepsVerdicts s a) (e : ExtractPc)
    (hext : s'.poll = .extract e) : Extracting s' e := by
  obtain ⟨hen, -⟩ := Server.step_some.1 hs
  rcases extract_step hs hext with ⟨e, ok, stmt, rfl, hstmt, rfl⟩ | rfl | ⟨hsame, hnot⟩
  · cases step_db hs with
    | asked stmt' hask hlog hdb =>
      obtain rfl : stmt' = stmt := Option.some.inj (hask.symm.trans hstmt)
      exact extracting_query h hen.1 hstmt hlog hdb
    | quiet hask =>
      have hnone : e.stmt = none := hask
      rw [hstmt] at hnone
      cases hnone
    | submitted row hnew ha => cases ha
    | opened ok' ha => cases ha
    | closed ha => cases ha
  · trivial
  · have hinv := h.extracting e hsame
    cases step_db hs with
    | quiet hask hlog hdb => exact hinv.congr hlog hdb
    | opened ok ha hlog hdb => exact hinv.congr hlog hdb
    | closed ha =>
      subst ha
      rw [show s.poll = .close from hen] at hsame
      cases hsame
    | submitted row hnew ha hlog hdb =>
      have hcommitted : (∀ id, s.Posted id → s.db.AllId id (·.committed.checking = 2)) →
          ∀ id, s'.Posted id → s'.db.AllId id (·.committed.checking = 2) := by
        intro hall id hid
        rw [posted_congr hlog] at hid
        rw [hdb]
        exact (hall id hid).insert (h.posted id hid).1 hnew
      cases e with
      | start rows =>
        intro x hx
        obtain ⟨hhas, hall⟩ := hinv x hx
        rw [hdb]
        exact ⟨Table.has_insert hhas hnew, hall.insert hhas hnew⟩
      | updates rows todo =>
        obtain ⟨hsub, hall, hrows⟩ := hinv
        refine ⟨hsub, hcommitted hall, fun x hx => ?_⟩
        obtain ⟨hhas, hfree, hstate⟩ := hrows x hx
        rw [posted_congr hlog, hdb]
        exact ⟨Table.has_insert hhas hnew, hfree, hstate.imp id fun hall => hall.insert hhas hnew⟩
      | rollback rows => exact hcommitted hinv
      | _ => trivial
    | asked stmt hask hlog hdb =>
      rcases asks_cases hp hs hk hask with ⟨e', ok, rfl, -⟩ |
        ⟨-, id, accepted, text, rfl, hfree | ⟨hout, r, sln, hsln, hid⟩⟩
      · exact absurd rfl (hnot e' ok)
      · exact absurd hsame (hfree e)
      · cases e with
        | start rows =>
          intro x hx
          obtain ⟨hhas, hnew⟩ := hinv x hx
          rw [hdb]
          rcases query_db_cases s (.postResult id accepted text) a.outcome with
            ⟨-, hexec⟩ | ⟨-, heq⟩
          · rw [hexec, Table.has_exec]
            refine ⟨hhas, hnew.exec fun t htid ht => ?_⟩
            -- what has been handed out is not among the new rows
            have hne : t.id ≠ id := by
              rintro heq
              obtain ⟨u, hu, huid⟩ := Table.has_iff.1 hhas
              have htaken := (h.dispatched r sln hsln).2 u hu (by rw [huid, ← htid, heq, hid])
              exact htaken.1 (hnew u hu huid)
            rwa [Tuple.exec, Tuple.update_of_ne hne]
          · rw [heq]
            exact ⟨hhas, hnew⟩
        | updates rows todo => exact absurd ⟨_, hsame, trivial⟩ hout
        | rollback rows => exact absurd ⟨_, hsame, trivial⟩ hout
        | _ => trivial

theorem durable_init (db : Table) : Durable (.init db) where
  posted := by simp [Server.Posted, Server.init]
  dispatched := by
    intro r sln hsln
    cases r <;> cases hsln
  extracting := by simp [Server.init]

theorem step_durable {s s' : Server} {a : Action} (hg : Guarded s) (hp : Polled s)
    (h : Durable s) (hs : s.step a = some s') (hk : KeepsVerdicts s a) : Durable s' :=
  ⟨step_posted hp h hs hk, step_taken hg h hs, step_extracting hp h hs hk⟩

/-- In a run without an FL result inside a transaction and without a transaction left
open at the end, verdicts are durable. -/
theorem verdicts_kept (db : Table) (as : List Action)
    (hk : Along Server.step (.init db) as KeepsVerdicts) :
    Throughout Server.step (.init db) as VerdictsKept := by
  have hinv : Throughout Server.step (.init db) as fun s => Guarded s ∧ Polled s ∧ Durable s := by
    refine Throughout.of_along hk ⟨guarded_init db, polled_init db, durable_init db⟩ ?_
    intro s a s' ⟨hg, hp, hd⟩ hok hs
    exact ⟨step_guarded hg hs, step_polled hp hs, step_durable hg hp hd hs hok⟩
  intro pre post s heq hr id hid
  obtain ⟨-, -, hd⟩ := hinv pre post s heq hr
  obtain ⟨hhas, htwo⟩ := hd.posted id hid
  obtain ⟨t, ht, htid⟩ := Table.has_iff.1 hhas
  exact ⟨t, ht, htid, htwo t ht htid⟩

/-- Row 1 is extracted, its solution is pushed, sent and judged. -/
def judgedRun : List Action :=
  joining 0 0 ++ starting ++ extracting [sampleRow 1] ++
    [.dispatch (decodeRow 0 (sampleRow 1)) []] ++ pushing .poll (decodeRow 0 (sampleRow 1)) 0 ++
    [.loop 0 0 ⟨.top, .other 0⟩ (.running true), .loop 0 0 ⟨.process, .other 0⟩ .process,
      .loop 0 0 ⟨.sending (decodeRow 0 (sampleRow 1)), .other 0⟩ (.send [.moved 17]),
      .loop 0 0 ⟨.recvLen, .other 0⟩ (.recvLen [.data [0, 7]]),
      .loop 0 0 ⟨.recvBody 7, .other 0⟩ (.recvBody [.data [109, 0, 0, 0, 1, 0, 1]] []),
      .loop 0 0 ⟨.posting 1 0 1, .other 0⟩ (.post true)]

theorem verdicts_kept_judged :
    (∃ s, Reaches oneNewRow judgedRun s ∧ s.Posted 1) ∧
      Throughout Server.step (.init oneNewRow) judgedRun VerdictsKept := by
  refine ⟨⟨_, Run.iff_foldlM.2 rfl, ⟨_, List.mem_cons_self, rfl, rfl, _, _, rfl⟩⟩, ?_⟩
  apply verdicts_kept oneNewRow judgedRun
  apply along_of_forall
  simp [judgedRun, joining, starting, extracting, pushing, KeepsVerdicts]

/-- The solution of row 1 waits in a client's queue; while row 2 is extracted the client
is reset, no other client is left, and the update of row 2 fails. -/
def undoneRun : List Action :=
  joining 0 0 ++ (resetting 0 0).take 2 ++ starting ++ extracting [sampleRow 1] ++
    [.dispatch (decodeRow 0 (sampleRow 1)) []] ++ pushing .poll (decodeRow 0 (sampleRow 1)) 0 ++
    [.again, .submit (sampleRow 2), .check, .lockDb, .query .select true,
      .query (.start [sampleRow 2]) true] ++
    (resetting 0 0).drop 2 ++ unmapping 0 0 0 ++
    [.lock 0 0 0, .pop 0 0 0 (decodeRow 0 (sampleRow 1)) [],
      .lookup (.worker 0) (decodeRow 0 (sampleRow 1)),
      .choose (.worker 0) (decodeRow 0 (sampleRow 1)) 0 true,
      .query (.updates [sampleRow 2] [sampleRow 2]) false, .query (.rollback [sampleRow 2]) true]

/-- The FL result of row 1 is rolled back with the extraction of row 2. -/
theorem verdict_undone :
    (∃ s, Reaches oneNewRow undoneRun s ∧ s.Posted 1 ∧
      s.db.tuples.map (fun t => t.current.checking) = [1, 0]) ∧
    ¬ Throughout Server.step (.init oneNewRow) undoneRun VerdictsKept := by
  have hend : ∃ s, Reaches oneNewRow undoneRun s ∧ s.Posted 1 ∧
      s.db.tuples.map (fun t => t.current.checking) = [1, 0] := by
    refine ⟨_, Run.iff_foldlM.2 rfl, ?_, rfl⟩
    exact ⟨_, List.mem_cons_of_mem _ (List.mem_cons_of_mem _ List.mem_cons_self), rfl, rfl, _, _,
      rfl⟩
  refine ⟨hend, fun h => ?_⟩
  obtain ⟨s, hrun, hposted, hchecking⟩ := hend
  obtain ⟨t, ht, -, htwo⟩ := h undoneRun [] s (by simp) hrun 1 hposted
  have hmem := List.mem_map_of_mem (f := fun t => t.current.checking) ht
  rw [hchecking, htwo] at hmem
  exact absurd hmem (by decide)

end JudgeServer
