import JudgeServer.Library.Run
import JudgeServer.SolutionsDb.Table

/-! `solutions_extract_new` of solutions_db.c, first as the function it is, on a
session that decides which queries fail, then query by query, as the other threads
of the server see it. The two are shown to agree. -/

namespace JudgeServer

open Transition

def ERR_DB : ℤ := 1

def ERR_SCHEMA : ℤ := 2

def FIELDS_COUNT : ℕ := 9

/-- `solution_t`, with `addr` for the identity of the object. The `time` field is
always NULL and is left out. -/
structure Solution where
  addr : ℕ
  id : UInt32
  userId : UInt32
  taskId : UInt32
  source : List UInt8
  sourceLen : UInt32
  compilerId : UInt32
  checking : UInt8
  accepted : Bool
  response : List UInt8
  responseLen : UInt8
  deriving DecidableEq, Repr

/-- The object the decoding loop fills from one row. -/
def decodeRow (addr : ℕ) (row : Row) : Solution where
  addr := addr
  id := row.id
  userId := row.userId
  taskId := row.taskId
  source := row.source ++ [0]
  sourceLen := UInt32.ofNat (row.source.length + 1)
  compilerId := row.compilerId
  checking := row.checking
  accepted := row.ac ≠ 0
  response := row.response.take (UInt8.ofNat row.response.length).toNat
  responseLen := UInt8.ofNat row.response.length

/-- The array of `calloc`: one object after the other, from address `base` on. -/
def decodeRows (base : ℕ) : List Row → List Solution
  | [] => []
  | row :: rows => decodeRow base row :: decodeRows (base + 1) rows

theorem decodeRows_ids (base : ℕ) (rows : List Row) :
    (decodeRows base rows).map Solution.id = rows.map Row.id := by
  induction rows generalizing base with
  | nil => rfl
  | cons row rows ih => simp [decodeRows, decodeRow, ih]

theorem decodeRows_addrs (base : ℕ) (rows : List Row) :
    (decodeRows base rows).map Solution.addr = List.range' base rows.length := by
  induction rows generalizing base with
  | nil => rfl
  | cons row rows ih =>
    simp [decodeRows, decodeRow, ih, List.range'_succ]

/-- The connection together with the outcomes of the queries to come: all of them
succeed once the list is used up. -/
structure Session where
  table : Table
  outcomes : List Bool

/-- `query`: a failed query has no effect. -/
def query (stmt : Stmt) (c : Session) : ℤ × Session :=
  if c.outcomes.headD true then (0, ⟨c.table.exec stmt, c.outcomes.tail⟩)
  else (ERR_DB, ⟨c.table, c.outcomes.tail⟩)

/-- The update loop with the commit after it. -/
def updateLoop : List Solution → Session → ℤ × Session
  | [], c => if (query .commit c).1 ≠ 0 then (ERR_DB, (query .commit c).2) else (0, (query .commit c).2)
  | sln :: slns, c =>
    let q := query (.setChecking sln.id) c
    if q.1 ≠ 0 then (ERR_DB, (query .rollback q.2).2)
    else updateLoop slns q.2

/-- Return value and out parameters of `solutions_extract_new`. -/
structure Extraction where
  ret : ℤ
  slns : List Solution
  deriving DecidableEq, Repr

def solutionsExtractNew (base : ℕ) (c : Session) : Extraction × Session :=
  let q := query .selectNew c
  if q.1 ≠ 0 then (⟨ERR_DB, []⟩, q.2)
  else if q.2.table.fieldCount ≠ FIELDS_COUNT then (⟨ERR_SCHEMA, []⟩, q.2)
  else if q.2.table.newRows = [] then (⟨0, []⟩, q.2)
  else
    let slns := decodeRows base q.2.table.newRows
    let st := query .startTransaction q.2
    if st.1 ≠ 0 then (⟨ERR_DB, slns⟩, st.2)
    else
      let u := updateLoop slns st.2
      (⟨u.1, slns⟩, u.2)

/-! The same function, stopped before each of its queries. -/

inductive ExtractPc
  | select
  | start (rows : List Row)
  | updates (rows todo : List Row)
  | rollback (rows : List Row)
  | ret (code : ℤ) (rows : List Row)
  deriving DecidableEq

/-- The query issued next. -/
def ExtractPc.stmt : ExtractPc → Option Stmt
  | .select => some .selectNew
  | .start _ => some .startTransaction
  | .updates _ [] => some .commit
  | .updates _ (row :: _) => some (.setChecking row.id)
  | .rollback _ => some .rollback
  | .ret _ _ => none

/-- Where the function stops next, after a query that went as `ok` says on a
connection that now shows `db`. -/
def ExtractPc.next (ok : Bool) (db : Table) : ExtractPc → ExtractPc
  | .select =>
    if !ok then .ret ERR_DB []
    else if db.fieldCount ≠ FIELDS_COUNT then .ret ERR_SCHEMA []
    else if db.newRows = [] then .ret 0 []
    else .start db.newRows
  | .start rows => if ok then .updates rows rows else .ret ERR_DB rows
  | .updates rows [] => .ret (if ok then 0 else ERR_DB) rows
  | .updates rows (_ :: todo) => if ok then .updates rows todo else .rollback rows
  | .rollback rows => .ret ERR_DB rows
  | .ret code rows => .ret code rows

/-- One query of the function, without interference. -/
def extractStep (s : ExtractPc × Session) (_ : Unit) : Option (ExtractPc × Session) :=
  s.1.stmt.map fun stmt =>
    let q := query stmt s.2
    (s.1.next (q.1 = 0) q.2.table, q.2)

theorem updateLoop_run (rows todo : List Row) (base : ℕ) (c : Session) :
    ∃ us, Run extractStep (.updates rows todo, c) us
      (.ret (updateLoop (decodeRows base todo) c).1 rows, (updateLoop (decodeRows base todo) c).2) := by
  induction todo generalizing base c with
  | nil =>
    refine ⟨[()], Run.single ?_⟩
    simp only [extractStep, ExtractPc.stmt, ExtractPc.next, Option.map_some, decodeRows, updateLoop]
    split_ifs with h h' <;> simp_all
  | cons row todo ih =>
    set q := query (.setChecking row.id) c with hq
    have hloop : updateLoop (decodeRows base (row :: todo)) c =
        if q.1 ≠ 0 then (ERR_DB, (query .rollback q.2).2)
        else updateLoop (decodeRows (base + 1) todo) q.2 := rfl
    have hstep : extractStep (.updates rows (row :: todo), c) () =
        some (if q.1 = 0 then .updates rows todo else .rollback rows, q.2) := by
      simp only [extractStep, ExtractPc.stmt, ExtractPc.next, Option.map_some, ← hq,
        decide_eq_true_eq]
    by_cases h : q.1 = 0
    · obtain ⟨us, hus⟩ := ih (base + 1) q.2
      rw [hloop, if_neg (not_not.2 h)]
      rw [if_pos h] at hstep
      exact ⟨() :: us, Run.cons_iff.2 ⟨_, hstep, hus⟩⟩
    · rw [hloop, if_pos h]
      rw [if_neg h] at hstep
      exact ⟨[(), ()], Run.cons_iff.2 ⟨_, hstep, Run.single rfl⟩⟩

/-- Run without interference, the query by query version does what the function
does. -/
theorem extract_run (base : ℕ) (c : Session) :
    ∃ us rows, Run extractStep (.select, c) us
        (.ret (solutionsExtractNew base c).1.ret rows, (solutionsExtractNew base c).2) ∧
      decodeRows base rows = (solutionsExtractNew base c).1.slns := by
  set q := query .selectNew c with hq
  have hsel : extractStep (.select, c) () = some (ExtractPc.next (q.1 = 0) q.2.table .select, q.2) := rfl
  simp only [solutionsExtractNew, ← hq]
  by_cases h : q.1 = 0
  · simp only [ExtractPc.next, h, decide_true, Bool.not_true, Bool.false_eq_true, if_false] at hsel
    rw [if_neg (not_not.2 h)]
    split_ifs at hsel ⊢ with hf hn hs
    · exact ⟨[()], [], Run.single hsel, rfl⟩
    · exact ⟨[()], [], Run.single hsel, rfl⟩
    · have hst : extractStep (.start q.2.table.newRows, q.2) () =
          some (.ret ERR_DB q.2.table.newRows, (query .startTransaction q.2).2) := by
        simp [extractStep, ExtractPc.stmt, ExtractPc.next, hs]
      exact ⟨[(), ()], _, Run.cons_iff.2 ⟨_, hsel, Run.single hst⟩, rfl⟩
    · have hst : extractStep (.start q.2.table.newRows, q.2) () =
          some (.updates q.2.table.newRows q.2.table.newRows, (query .startTransaction q.2).2) := by
        simp [extractStep, ExtractPc.stmt, ExtractPc.next, not_not.1 hs]
      obtain ⟨us, hus⟩ := updateLoop_run q.2.table.newRows q.2.table.newRows base
        (query .startTransaction q.2).2
      exact ⟨() :: () :: us, _, Run.cons_iff.2 ⟨_, hsel, Run.cons_iff.2 ⟨_, hst, hus⟩⟩, rfl⟩
  · rw [if_pos h]
    simp only [ExtractPc.next, h, decide_false, Bool.not_false, if_true] at hsel
    exact ⟨[()], [], Run.single hsel, rfl⟩

end JudgeServer
