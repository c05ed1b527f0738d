import JudgeServer.SolutionsDb.Extract

/-! Extraction over successive polls. A call is atomic unless the query that should
close its transaction fails, the rollback after a failed update or the commit; over
runs of polls and submissions this decides whether a submitted row can get lost. -/

namespace JudgeServer

open Transition

/-- The durable mark that a successful call leaves on a row it returns. -/
def Tuple.take (t : Tuple) : Tuple :=
  if t.current.checking = 0 then .fresh t.current.setChecking else t

@[simp] theorem Tuple.take_id (t : Tuple) : t.take.id = t.id := by
  unfold Tuple.take
  split_ifs
  · exact t.sameId
  · rfl

/-- All or nothing: a call that returns 0 returns the rows that had `checking = 0`
and leaves exactly these durably at 1, any other call changes nothing. No call
leaves a transaction open. -/
structure Atomic (base : ℕ) (db : Table) (r : Extraction × Session) : Prop where
  success : r.1.ret = 0 →
    r.1.slns = decodeRows base db.newRows ∧ r.2.table.tuples = db.tuples.map Tuple.take
  failure : r.1.ret ≠ 0 → r.2.table = db
  closed : r.2.table.inTransaction = false

/-- Of the queries after `start transaction`, with `n` updates to make, the one that
should close the transaction fails. -/
def closingFails : ℕ → List Bool → Prop
  | 0, os => os.headD true = false
  | n + 1, os => if os.headD true then closingFails n os.tail else os.tail.headD true = false

/-- The call gets to open a transaction that its closing query leaves open. -/
def CloseFails (db : Table) (os : List Bool) : Prop :=
  os.headD true = true ∧ db.fieldCount = FIELDS_COUNT ∧ db.newRows ≠ [] ∧
    os.tail.headD true = true ∧ closingFails db.newRows.length os.tail.tail

instance decidableClosingFails : ∀ n os, Decidable (closingFails n os)
  | 0, os => inferInstanceAs (Decidable (os.headD true = false))
  | n + 1, os =>
    have := decidableClosingFails n os.tail
    inferInstanceAs (Decidable
      (if os.headD true then closingFails n os.tail else os.tail.headD true = false))

instance (db : Table) (os : List Bool) : Decidable (CloseFails db os) := by
  unfold CloseFails
  infer_instance

def setAll (ids : List UInt32) (db : Table) : Table :=
  ids.foldl (fun db id => db.exec (.setChecking id)) db

theorem setChecking_rollback {db : Table} (h : db.inTransaction = true) (id : UInt32) :
    (db.exec (.setChecking id)).rollback = db.rollback := by
  have htuples : (db.exec (.setChecking id)).rollback.tuples = db.rollback.tuples := by
    simp only [Table.exec, Table.update, Table.rollback, List.map_map]
    apply List.map_congr_left
    intro t _
    simp only [Function.comp_apply, Tuple.rollback, h, Tuple.update_committed]
  exact Table.ext htuples rfl rfl

theorem setAll_commit {db : Table} (h : db.inTransaction = true) (ids : List UInt32) :
    (setAll ids db).commit.tuples =
      db.tuples.map fun t => if t.id ∈ ids then .fresh t.current.setChecking else t.commit := by
  induction ids generalizing db with
  | nil => simp [setAll, Table.commit]
  | cons id ids ih =>
    have hstep : setAll (id :: ids) db = setAll ids (db.exec (.setChecking id)) := rfl
    rw [hstep, @ih (db.exec (.setChecking id)) h]
    simp only [Table.exec, Table.update, List.map_map]
    apply List.map_congr_left
    intro t _
    simp only [Function.comp_apply, Tuple.update_id, List.mem_cons]
    by_cases hid : t.id = id
    · -- marking a row twice is marking it once
      by_cases hmem : id ∈ ids
      · simp only [hid, hmem, or_true, if_true, Tuple.update_current hid]
        rfl
      · simp only [hid, hmem, or_false, if_true, if_false, Tuple.commit, Tuple.update_current hid]
        rfl
    · simp only [Tuple.update_of_ne hid, hid, false_or]

theorem query_ok {stmt : Stmt} {c : Session} (h : c.outcomes.headD true = true) :
    query stmt c = (0, ⟨c.table.exec stmt, c.outcomes.tail⟩) := if_pos h

theorem query_fail {stmt : Stmt} {c : Session} (h : c.outcomes.headD true = false) :
    query stmt c = (ERR_DB, ⟨c.table, c.outcomes.tail⟩) :=
  if_neg (by rw [h]; exact Bool.false_ne_true)

/-- A closing query that fails leaves the loop with an error and the transaction open. -/
theorem updateLoop_open {slns : List Solution} {c : Session} (h : c.table.inTransaction = true)
    (hf : closingFails slns.length c.outcomes) :
    (updateLoop slns c).1 ≠ 0 ∧ (updateLoop slns c).2.table.inTransaction = true := by
  induction slns generalizing c with
  | nil =>
    have hq : query .commit c = _ := query_fail hf
    simp [updateLoop, hq, ERR_DB, h]
  | cons sln slns ih =>
    cases ho : c.outcomes.headD true with
    | false =>
      simp only [List.length_cons, closingFails, ho, Bool.false_eq_true, if_false] at hf
      have hq : query (.setChecking sln.id) c = _ := query_fail ho
      have hr : query .rollback ⟨c.table, c.outcomes.tail⟩ = _ := query_fail hf
      simp [updateLoop, hq, hr, ERR_DB, h]
    | true =>
      simp only [List.length_cons, closingFails, ho, if_true] at hf
      have hq : query (.setChecking sln.id) c = _ := query_ok ho
      simp only [updateLoop, hq, ne_eq, not_true_eq_false, if_false]
      exact ih h hf

/-- Otherwise the loop commits all of the marks or rolls all of them back. -/
theorem updateLoop_closed {slns : List Solution} {c : Session} (h : c.table.inTransaction = true)
    (hf : ¬ closingFails slns.length c.outcomes) :
    ((updateLoop slns c).1 = 0 ∧
        (updateLoop slns c).2.table = (setAll (slns.map Solution.id) c.table).commit) ∨
      ((updateLoop slns c).1 ≠ 0 ∧ (updateLoop slns c).2.table = c.table.rollback) := by
  induction slns generalizing c with
  | nil =>
    have ho : c.outcomes.headD true = true := by simpa [closingFails] using hf
    left
    simp [updateLoop, query_ok ho, setAll, Table.exec]
  | cons sln slns ih =>
    cases ho : c.outcomes.headD true with
    | false =>
      have hr : c.outcomes.tail.headD true = true := by
        simpa only [List.length_cons, closingFails, ho, Bool.false_eq_true, if_false,
          Bool.not_eq_false] using hf
      have hroll : query .rollback ⟨c.table, c.outcomes.tail⟩ = _ := query_ok hr
      right
      simp [updateLoop, query_fail ho, hroll, ERR_DB, Table.exec]
    | true =>
      simp only [List.length_cons, closingFails, ho, if_true] at hf
      have hq : query (.setChecking sln.id) c = _ := query_ok ho
      simp only [updateLoop, hq, ne_eq, not_true_eq_false, if_false]
      have hrec := @ih ⟨c.table.exec (.setChecking sln.id), c.outcomes.tail⟩ h hf
      rw [setChecking_rollback h] at hrec
      exact hrec

/-- Marking the ids of the new rows of a table is taking its new rows. -/
theorem take_of_setAll {db : Table} (h : db.inTransaction = false) (base : ℕ) :
    (setAll ((decodeRows base db.newRows).map Solution.id) db.startTransaction).commit.tuples =
      db.tuples.map Tuple.take := by
  rw [setAll_commit rfl, decodeRows_ids]
  simp only [Table.startTransaction, Table.commit, List.map_map]
  apply List.map_congr_left
  intro t ht
  have hset := db.settled h t ht
  simp only [Function.comp_apply, Tuple.commit_id, Tuple.commit_current, Table.id_mem_newRows ht,
    Tuple.take]
  split_ifs with h0
  · rfl
  · obtain ⟨committed, current, sameId⟩ := t
    obtain rfl : current = committed := hset
    rfl

theorem rollback_of_closed {db : Table} (h : db.inTransaction = false) :
    db.startTransaction.rollback = db := by
  have htuples : db.startTransaction.rollback.tuples = db.tuples := by
    simp only [Table.startTransaction, Table.commit, Table.rollback, List.map_map]
    conv_rhs => rw [← List.map_id db.tuples]
    apply List.map_congr_left
    intro t ht
    have hset := db.settled h t ht
    obtain ⟨committed, current, sameId⟩ := t
    obtain rfl : current = committed := hset
    rfl
  exact Table.ext htuples h.symm rfl

/-- A call that stops before its transaction leaves the table alone. -/
theorem atomic_of_unchanged {base : ℕ} {db : Table} {r : Extraction × Session}
    (h : db.inTransaction = false) (htable : r.2.table = db)
    (hret : r.1.ret = 0 → r.1.slns = [] ∧ db.newRows = []) : Atomic base db r where
  success h0 := by
    obtain ⟨hs, hn⟩ := hret h0
    refine ⟨by rw [hs, hn]; rfl, ?_⟩
    rw [htable]
    conv_lhs => rw [← List.map_id db.tuples]
    apply List.map_congr_left
    intro t ht
    have h0 : t.current.checking ≠ 0 := by
      intro h0
      have hmem := Table.mem_newRows.2 ⟨t, ht, rfl, h0⟩
      simp [hn] at hmem
    simp [Tuple.take, h0]
  failure _ := htable
  closed := by rw [htable, h]

/-- From a closed connection a call is atomic exactly when the query that should
close its transaction does not fail. -/
theorem extract_atomic_iff {db : Table} (h : db.inTransaction = false) (base : ℕ) (os : List Bool) :
    Atomic base db (solutionsExtractNew base ⟨db, os⟩) ↔ ¬ CloseFails db os := by
  unfold CloseFails
  cases h1 : os.headD true with
  | false =>
    have hq : query .selectNew ⟨db, os⟩ = _ := query_fail h1
    have hx : solutionsExtractNew base ⟨db, os⟩ = (⟨ERR_DB, []⟩, ⟨db, os.tail⟩) := by
      simp [solutionsExtractNew, hq, ERR_DB]
    rw [hx]
    exact iff_of_true (atomic_of_unchanged h rfl (by simp [ERR_DB])) (by simp)
  | true =>
  have hq : query .selectNew ⟨db, os⟩ = _ := query_ok h1
  by_cases h2 : db.fieldCount = FIELDS_COUNT
  swap
  · have hx : solutionsExtractNew base ⟨db, os⟩ = (⟨ERR_SCHEMA, []⟩, ⟨db, os.tail⟩) := by
      simp [solutionsExtractNew, hq, h2, Table.exec]
    rw [hx]
    exact iff_of_true (atomic_of_unchanged h rfl (by simp [ERR_SCHEMA])) (by simp [h2])
  by_cases h3 : db.newRows = []
  · have hx : solutionsExtractNew base ⟨db, os⟩ = (⟨0, []⟩, ⟨db, os.tail⟩) := by
      simp [solutionsExtractNew, hq, h2, h3, Table.exec]
    rw [hx]
    exact iff_of_true (atomic_of_unchanged h rfl (fun _ => ⟨rfl, h3⟩)) (by simp [h3])
  cases h4 : os.tail.headD true with
  | false =>
    have hst : query .startTransaction ⟨db, os.tail⟩ = _ := query_fail h4
    have hx : solutionsExtractNew base ⟨db, os⟩ =
        (⟨ERR_DB, decodeRows base db.newRows⟩, ⟨db, os.tail.tail⟩) := by
      simp [solutionsExtractNew, hq, h2, h3, hst, Table.exec, ERR_DB]
    rw [hx]
    exact iff_of_true (atomic_of_unchanged h rfl (by simp [ERR_DB])) (by simp)
  | true =>
    have hst : query .startTransaction ⟨db, os.tail⟩ = _ := query_ok h4
    set slns := decodeRows base db.newRows with hslns
    set c : Session := ⟨db.startTransaction, os.tail.tail⟩ with hc
    have hx : solutionsExtractNew base ⟨db, os⟩ =
        (⟨(updateLoop slns c).1, slns⟩, (updateLoop slns c).2) := by
      simp [solutionsExtractNew, hq, h2, h3, hst, Table.exec, hslns, hc]
    have hlen : slns.length = db.newRows.length := by
      have hmap := congrArg List.length (decodeRows_ids base db.newRows)
      simpa [hslns] using hmap
    rw [hx]
    by_cases h5 : closingFails db.newRows.length os.tail.tail
    · obtain ⟨-, hopen⟩ := @updateLoop_open slns c rfl (by rw [hlen]; exact h5)
      refine iff_of_false (fun ha => ?_) (by simp [h2, h3, h5])
      have hclosed := ha.closed
      rw [hopen] at hclosed
      exact Bool.noConfusion hclosed
    · refine iff_of_true ?_ (by simp [h5])
      rcases @updateLoop_closed slns c rfl (by rw [hlen]; exact h5) with
        ⟨hret, htable⟩ | ⟨hret, htable⟩
      · refine ⟨fun _ => ⟨rfl, ?_⟩, fun hne => absurd hret hne, ?_⟩
        · rw [htable]
          exact take_of_setAll h base
        · rw [htable]
          rfl
      · have hback : c.table.rollback = db := rollback_of_closed h
        refine ⟨fun h0 => absurd h0 hret, fun _ => htable.trans hback, ?_⟩
        rw [htable, hback, h]

/-! Successive polls. -/

/-- The table between polls, the next free object address and what the calls that
returned 0 have handed to the dispatch loop of `poll_database`. -/
structure Polling where
  table : Table
  nextAddr : ℕ
  returned : List Solution

inductive PollOp
  | submit (row : Row)
  | poll (outcomes : List Bool)

def pollStep (s : Polling) : PollOp → Option Polling
  | .submit row =>
    if h : row.checking = 0 ∧ row.id ∉ s.table.tuples.map Tuple.id then
      some { s with table := s.table.insert row h.2 }
    else none
  | .poll os =>
    let r := solutionsExtractNew s.nextAddr ⟨s.table, os⟩
    some {
      table := r.2.table
      nextAddr := s.nextAddr + r.1.slns.length
      returned := if r.1.ret = 0 then s.returned ++ r.1.slns else s.returned }

/-- The call made by this step, if it is one, is atomic. -/
def CallAtomic (s : Polling) : PollOp → Prop
  | .submit _ => True
  | .poll os => Atomic s.nextAddr s.table (solutionsExtractNew s.nextAddr ⟨s.table, os⟩)

def CallCloses (s : Polling) : PollOp → Prop
  | .submit _ => True
  | .poll os => ¬ CloseFails s.table os

instance (s : Polling) (op : PollOp) : Decidable (CallCloses s op) := by
  cases op <;> dsimp only [CallCloses] <;> infer_instance

/-- The ids that were new at the start or have been submitted since. -/
def submitted (db : Table) (ops : List PollOp) : List UInt32 :=
  db.newRows.map Row.id ++ ops.filterMap fun op => match op with
    | .submit row => some row.id
    | .poll _ => none

/-- A submitted row is still selectable, or durably at 1 and returned exactly once. -/
def RowAccounted (s : Polling) (t : Tuple) : Prop :=
  (t.current.checking = 0 ∧ (s.returned.map Solution.id).count t.id = 0) ∨
    (t.committed.checking = 1 ∧ (s.returned.map Solution.id).count t.id = 1)

/-- What extraction promises over a run: every call is atomic, and every submitted
row is returned by exactly one successful call or can still be selected. -/
def ExtractionSafe (db : Table) (ops : List PollOp) (s₀ s : Polling) : Prop :=
  Along pollStep s₀ ops CallAtomic ∧
    ∀ t ∈ s.table.tuples, t.id ∈ submitted db ops → RowAccounted s t

theorem closed_of_atomic {s₀ s : Polling} {ops : List PollOp} (hrun : Run pollStep s₀ ops s)
    (h0 : s₀.table.inTransaction = false) (hatomic : Along pollStep s₀ ops CallAtomic) :
    s.table.inTransaction = false := by
  apply hrun.invariant_along (I := fun s => s.table.inTransaction = false) hatomic h0
  intro s op s' hclosed hcall hstep
  cases op with
  | submit row =>
    simp only [pollStep] at hstep
    split at hstep
    · obtain rfl := Option.some.inj hstep
      exact hclosed
    · cases hstep
  | poll os =>
    obtain rfl := Option.some.inj hstep
    exact hcall.closed

/-- The calls of a run are all atomic exactly when no closing query fails. -/
theorem along_atomic_iff {s₀ s : Polling} {ops : List PollOp} (hrun : Run pollStep s₀ ops s)
    (h0 : s₀.table.inTransaction = false) :
    Along pollStep s₀ ops CallAtomic ↔ Along pollStep s₀ ops CallCloses := by
  induction hrun with
  | nil => exact iff_of_true along_nil along_nil
  | @snoc ops op s s' hr hs ih =>
    rw [along_snoc hr, along_snoc hr, ← ih]
    apply and_congr_right
    intro hatomic
    cases op with
    | submit row => exact Iff.rfl
    | poll os => exact extract_atomic_iff (closed_of_atomic hr h0 hatomic) _ _

/-- What accounting for the submitted rows rests on between two calls. -/
structure PollInv (db : Table) (ops : List PollOp) (s : Polling) : Prop where
  known : ∀ id ∈ s.returned.map Solution.id, id ∈ s.table.tuples.map Tuple.id
  unreturned : ∀ t ∈ s.table.tuples, t.current.checking = 0 →
    (s.returned.map Solution.id).count t.id = 0
  accounted : ∀ t ∈ s.table.tuples, t.id ∈ submitted db ops → RowAccounted s t

theorem submitted_snoc (db : Table) (ops : List PollOp) (op : PollOp) (id : UInt32) :
    id ∈ submitted db (ops ++ [op]) ↔
      id ∈ submitted db ops ∨ ∃ row, op = .submit row ∧ row.id = id := by
  cases op <;> simp [submitted, or_assoc, eq_comm]

theorem pollInv_submit {db : Table} {ops : List PollOp} {s : Polling} {row : Row}
    (h : PollInv db ops s) (h0 : row.checking = 0) (hid : row.id ∉ s.table.tuples.map Tuple.id) :
    PollInv db (ops ++ [.submit row]) { s with table := s.table.insert row hid } := by
  have hcount : (s.returned.map Solution.id).count row.id = 0 :=
    List.count_eq_zero.2 fun hmem => hid (h.known _ hmem)
  refine ⟨fun id hmem => ?_, fun t ht hz => ?_, fun t ht hsub => ?_⟩
  · have hold := h.known id hmem
    simp only [Table.insert, List.map_append, List.mem_append]
    exact Or.inl hold
  · rcases List.mem_append.1 ht with ht | ht
    · exact h.unreturned t ht hz
    · obtain rfl := List.mem_singleton.1 ht
      exact hcount
  · rcases List.mem_append.1 ht with ht | ht
    · rcases (submitted_snoc db ops _ t.id).1 hsub with hsub | ⟨r, hr, hrid⟩
      · exact h.accounted t ht hsub
      · -- an old row does not have the id of the new one
        obtain rfl := PollOp.submit.inj hr
        rw [hrid] at hid
        exact absurd (List.mem_map_of_mem ht) hid
    · obtain rfl := List.mem_singleton.1 ht
      exact Or.inl ⟨h0, hcount⟩

theorem pollInv_poll {db : Table} {ops : List PollOp} {s : Polling} {os : List Bool} {s' : Polling}
    (h : PollInv db ops s) (hcall : CallAtomic s (.poll os)) (hs : pollStep s (.poll os) = some s') :
    PollInv db (ops ++ [.poll os]) s' := by
  have hsub : ∀ id, id ∈ submitted db (ops ++ [.poll os]) → id ∈ submitted db ops := by
    intro id hid
    simpa [submitted_snoc] using hid
  obtain rfl := Option.some.inj hs
  by_cases hret : (solutionsExtractNew s.nextAddr ⟨s.table, os⟩).1.ret = 0
  · obtain ⟨hslns, htuples⟩ := hcall.success hret
    have hcount : ∀ t ∈ s.table.tuples,
        ((s.returned ++ decodeRows s.nextAddr s.table.newRows).map Solution.id).count t.id =
          (s.returned.map Solution.id).count t.id + if t.current.checking = 0 then 1 else 0 := by
      intro t ht
      rw [List.map_append, List.count_append, decodeRows_ids, Table.count_newRows ht]
    simp only [hret, if_true, hslns]
    refine ⟨fun id hmem => ?_, fun t ht hz => ?_, fun t ht hid => ?_⟩
    · simp only [htuples, List.map_map]
      rw [List.map_append, decodeRows_ids] at hmem
      have hids : s.table.tuples.map (Tuple.id ∘ Tuple.take) = s.table.tuples.map Tuple.id := by
        simp [Function.comp_def]
      rw [hids]
      rcases List.mem_append.1 hmem with hmem | hmem
      · exact h.known id hmem
      · obtain ⟨r, hr, rfl⟩ := List.mem_map.1 hmem
        obtain ⟨t, ht, rfl, -⟩ := Table.mem_newRows.1 hr
        exact List.mem_map.2 ⟨t, ht, t.current_id.symm⟩
    · simp only [htuples] at ht
      obtain ⟨u, hu, rfl⟩ := List.mem_map.1 ht
      -- no taken row is new
      exfalso
      by_cases h0 : u.current.checking = 0
      · simp [Tuple.take, h0] at hz
      · rw [Tuple.take, if_neg h0] at hz
        exact h0 hz
    · simp only [htuples] at ht
      obtain ⟨u, hu, rfl⟩ := List.mem_map.1 ht
      rw [Tuple.take_id] at hid
      unfold RowAccounted
      rw [Tuple.take_id, hcount u hu]
      by_cases h0 : u.current.checking = 0
      · right
        simp [Tuple.take, h0, h.unreturned u hu h0, Tuple.fresh]
      · have hold := h.accounted u hu (hsub _ hid)
        simpa [Tuple.take, h0, RowAccounted] using hold
  · have htable := hcall.failure hret
    simp only [hret, if_false, htable]
    exact ⟨h.known, h.unreturned, fun t ht hid => h.accounted t ht (hsub _ hid)⟩

theorem pollInv_run {db : Table} {n : ℕ} {ops : List PollOp} {s : Polling}
    (hrun : Run pollStep ⟨db, n, []⟩ ops s) (hatomic : Along pollStep ⟨db, n, []⟩ ops CallAtomic) :
    PollInv db ops s := by
  induction hrun with
  | nil =>
    refine ⟨by simp, by simp, fun t ht hid => Or.inl ⟨?_, rfl⟩⟩
    simp only [submitted, List.filterMap_nil, List.append_nil] at hid
    exact (Table.id_mem_newRows ht).1 hid
  | @snoc ops op s s' hr hs ih =>
    obtain ⟨hatomic, hcall⟩ := (along_snoc hr).1 hatomic
    have hinv := ih hatomic
    cases op with
    | submit row =>
      simp only [pollStep] at hs
      split at hs
      · rename_i hrow
        obtain rfl := Option.some.inj hs
        exact pollInv_submit hinv hrow.1 hrow.2
      · cases hs
    | poll os => exact pollInv_poll hinv hcall hs

/-- Extraction is safe over a run exactly when none of its calls leaves a
transaction open by a failed rollback or commit. -/
theorem extraction_safe_iff (db : Table) (n : ℕ) (ops : List PollOp) (s : Polling)
    (hclosed : db.inTransaction = false) (hrun : Run pollStep ⟨db, n, []⟩ ops s) :
    ExtractionSafe db ops ⟨db, n, []⟩ s ↔ Along pollStep ⟨db, n, []⟩ ops CallCloses := by
  rw [← along_atomic_iff hrun hclosed]
  refine ⟨fun h => h.1, fun hatomic => ⟨hatomic, ?_⟩⟩
  exact (pollInv_run hrun hatomic).accounted

/-! A commit that fails: the one new row is at 1 for this connection, no call has
returned it, and the next `start transaction` would make that durable. -/

def sampleRow (id : UInt32) : Row := ⟨id, 1, 1, [0x61], 5, 0, 0, []⟩

def oneNewRow : Table where
  tuples := [.fresh (sampleRow 1)]
  inTransaction := false
  fieldCount := 9
  idsNodup := by decide
  settled := by simp [Tuple.fresh]

def lostCommit : PollOp := .poll [true, true, true, false]

def afterLostCommit : Polling where
  table := (solutionsExtractNew 0 ⟨oneNewRow, [true, true, true, false]⟩).2.table
  nextAddr := 1
  returned := []

theorem extraction_unsafe :
    Run pollStep ⟨oneNewRow, 0, []⟩ [lostCommit] afterLostCommit ∧
      afterLostCommit.table.newRows = [] ∧
      ¬ ExtractionSafe oneNewRow [lostCommit] ⟨oneNewRow, 0, []⟩ afterLostCommit := by
  have hrun : Run pollStep ⟨oneNewRow, 0, []⟩ [lostCommit] afterLostCommit := Run.single rfl
  refine ⟨hrun, by decide, fun h => ?_⟩
  have hcall : CallAtomic ⟨oneNewRow, 0, []⟩ lostCommit := h.1 [] lostCommit [] _ rfl Run.nil
  have hopen : afterLostCommit.table.inTransaction = true := by decide
  have hclosed : afterLostCommit.table.inTransaction = false := hcall.closed
  rw [hopen] at hclosed
  exact Bool.noConfusion hclosed

/-- Two new rows; the update of the second one fails and is rolled back, and the next call
returns both. -/
def retriedPolls : List PollOp :=
  [.submit (sampleRow 2), .poll [true, true, true, false, true], .poll []]

theorem extraction_safe_retried : oneNewRow.inTransaction = false ∧
    ∃ s, Run pollStep ⟨oneNewRow, 0, []⟩ retriedPolls s ∧ s.returned.map Solution.id = [1, 2] ∧
      ExtractionSafe oneNewRow retriedPolls ⟨oneNewRow, 0, []⟩ s := by
  have hrun : Run pollStep ⟨oneNewRow, 0, []⟩ retriedPolls _ := Run.iff_foldlM.2 rfl
  refine ⟨rfl, _, hrun, rfl, (extraction_safe_iff oneNewRow 0 retriedPolls _ rfl hrun).2 ?_⟩
  refine (along_cons rfl).2 ⟨trivial, (along_cons rfl).2 ⟨?_, (along_cons rfl).2 ⟨?_, along_nil⟩⟩⟩
  · decide
  · decide

end JudgeServer
