import Mathlib.Tactic

/-! The `solutions` table as the one MySQL connection of the server sees it, and
the six statements the server sends. A statement of an open transaction is visible
to the connection at once and durable on commit only. -/

namespace JudgeServer

/-- A row of `solutions`: the columns that solutions_db.c reads or writes. -/
structure Row where
  id : UInt32
  userId : UInt32
  taskId : UInt32
  source : List UInt8
  compilerId : UInt32
  checking : UInt8
  ac : UInt8
  response : List UInt8
  deriving DecidableEq, Repr

/-- `checking = 1` -/
def Row.setChecking (r : Row) : Row := { r with checking := 1 }

/-- `checking = 2, ac = accepted, response = text` -/
def Row.postResult (accepted : UInt8) (text : List UInt8) (r : Row) : Row :=
  { r with checking := 2, ac := accepted, response := text }

@[simp] theorem Row.setChecking_id (r : Row) : r.setChecking.id = r.id := rfl

@[simp] theorem Row.setChecking_checking (r : Row) : r.setChecking.checking = 1 := rfl

@[simp] theorem Row.postResult_id (accepted : UInt8) (text : List UInt8) (r : Row) :
    (r.postResult accepted text).id = r.id := rfl

@[simp] theorem Row.postResult_checking (accepted : UInt8) (text : List UInt8) (r : Row) :
    (r.postResult accepted text).checking = 2 := rfl

/-- A row with its durable version and the version this connection sees. -/
structure Tuple where
  committed : Row
  current : Row
  sameId : current.id = committed.id
  deriving DecidableEq

def Tuple.id (t : Tuple) : UInt32 := t.committed.id

theorem Tuple.current_id (t : Tuple) : t.current.id = t.id := t.sameId

def Tuple.fresh (r : Row) : Tuple := ⟨r, r, rfl⟩

def Tuple.commit (t : Tuple) : Tuple := ⟨t.current, t.current, rfl⟩

def Tuple.rollback (t : Tuple) : Tuple := ⟨t.committed, t.committed, rfl⟩

/-- An update by id: of the visible version inside a transaction, of both outside. -/
def Tuple.update (inTransaction : Bool) (id : UInt32) (g : Row → Row)
    (hg : ∀ r, (g r).id = r.id) (t : Tuple) : Tuple :=
  if t.id = id then
    if inTransaction then ⟨t.committed, g t.current, by rw [hg]; exact t.sameId⟩
    else ⟨g t.current, g t.current, rfl⟩
  else t

@[simp] theorem Tuple.fresh_id (r : Row) : (Tuple.fresh r).id = r.id := rfl

@[simp] theorem Tuple.fresh_current (r : Row) : (Tuple.fresh r).current = r := rfl

@[simp] theorem Tuple.commit_id (t : Tuple) : t.commit.id = t.id := t.sameId

@[simp] theorem Tuple.rollback_id (t : Tuple) : t.rollback.id = t.id := rfl

@[simp] theorem Tuple.commit_current (t : Tuple) : t.commit.current = t.current := rfl

@[simp] theorem Tuple.commit_committed (t : Tuple) : t.commit.committed = t.current := rfl

@[simp] theorem Tuple.rollback_current (t : Tuple) : t.rollback.current = t.committed := rfl

@[simp] theorem Tuple.rollback_committed (t : Tuple) : t.rollback.committed = t.committed := rfl

@[simp] theorem Tuple.update_id (b : Bool) (id : UInt32) (g : Row → Row)
    (hg : ∀ r, (g r).id = r.id) (t : Tuple) : (t.update b id g hg).id = t.id := by
  unfold Tuple.update
  split_ifs with h hb
  · rfl
  · exact (hg _).trans t.sameId
  · rfl

theorem Tuple.update_of_ne {b : Bool} {id : UInt32} {g : Row → Row} {hg : ∀ r, (g r).id = r.id}
    {t : Tuple} (h : t.id ≠ id) : t.update b id g hg = t := if_neg h

theorem Tuple.update_current {b : Bool} {id : UInt32} {g : Row → Row}
    {hg : ∀ r, (g r).id = r.id} {t : Tuple} (h : t.id = id) :
    (t.update b id g hg).current = g t.current := by
  unfold Tuple.update
  split_ifs <;> rfl

theorem Tuple.update_committed {id : UInt32} {g : Row → Row} {hg : ∀ r, (g r).id = r.id}
    {t : Tuple} : (t.update true id g hg).committed = t.committed := by
  by_cases h : t.id = id
  · simp only [Tuple.update, if_pos h, if_true]
  · rw [Tuple.update_of_ne h]

/-- The table with the state of the connection. `id` is the primary key, and no
uncommitted version exists outside a transaction. -/
@[ext] structure Table where
  tuples : List Tuple
  inTransaction : Bool
  fieldCount : ℕ
  idsNodup : (tuples.map Tuple.id).Nodup
  settled : inTransaction = false → ∀ t ∈ tuples, t.current = t.committed

/-- A statement as `query` sends it. -/
inductive Stmt
  | selectNew
  | startTransaction
  | setChecking (id : UInt32)
  | postResult (id : UInt32) (accepted : UInt8) (text : List UInt8)
  | rollback
  | commit
  deriving DecidableEq, Repr

/-- What a statement that succeeds does to one row. -/
def Tuple.exec (inTransaction : Bool) : Stmt → Tuple → Tuple
  | .selectNew, t => t
  | .startTransaction, t => t.commit
  | .setChecking id, t => t.update inTransaction id Row.setChecking Row.setChecking_id
  | .postResult id accepted text, t =>
    t.update inTransaction id (Row.postResult accepted text) (Row.postResult_id accepted text)
  | .rollback, t => t.rollback
  | .commit, t => t.commit

@[simp] theorem Tuple.exec_id (b : Bool) (stmt : Stmt) (t : Tuple) : (t.exec b stmt).id = t.id := by
  cases stmt <;> simp [Tuple.exec]

namespace Table

def update (id : UInt32) (g : Row → Row) (hg : ∀ r, (g r).id = r.id) (db : Table) : Table where
  tuples := db.tuples.map (Tuple.update db.inTransaction id g hg)
  inTransaction := db.inTransaction
  fieldCount := db.fieldCount
  idsNodup := by
    rw [List.map_map]
    simpa [Function.comp_def] using db.idsNodup
  settled := by
    intro h t ht
    obtain ⟨u, hu, rfl⟩ := List.mem_map.1 ht
    unfold Tuple.update
    split_ifs with hid hb
    · simp [h] at hb
    · rfl
    · exact db.settled h u hu

def commit (db : Table) : Table where
  tuples := db.tuples.map Tuple.commit
  inTransaction := false
  fieldCount := db.fieldCount
  idsNodup := by
    rw [List.map_map]
    simpa [Function.comp_def] using db.idsNodup
  settled := by
    intro _ t ht
    obtain ⟨t, -, rfl⟩ := List.mem_map.1 ht
    rfl

def rollback (db : Table) : Table where
  tuples := db.tuples.map Tuple.rollback
  inTransaction := false
  fieldCount := db.fieldCount
  idsNodup := by
    rw [List.map_map]
    simpa [Function.comp_def] using db.idsNodup
  settled := by
    intro _ t ht
    obtain ⟨t, -, rfl⟩ := List.mem_map.1 ht
    rfl

/-- `start transaction` commits an open transaction first. -/
def startTransaction (db : Table) : Table :=
  { db.commit with
    inTransaction := true
    settled := by simp }

/-- The effect of a statement that succeeds. -/
def exec (db : Table) : Stmt → Table
  | .selectNew => db
  | .startTransaction => db.startTransaction
  | .setChecking id => db.update id Row.setChecking Row.setChecking_id
  | .postResult id accepted text => db.update id (Row.postResult accepted text) (Row.postResult_id accepted text)
  | .rollback => db.rollback
  | .commit => db.commit

/-- `select * from solutions where checking = 0` -/
def newRows (db : Table) : List Row := (db.tuples.map Tuple.current).filter (·.checking = 0)

/-- Another connection inserts a row of its own. -/
def insert (db : Table) (r : Row) (hr : r.id ∉ db.tuples.map Tuple.id) : Table where
  tuples := db.tuples ++ [.fresh r]
  inTransaction := db.inTransaction
  fieldCount := db.fieldCount
  idsNodup := by
    rw [List.map_append, List.nodup_append]
    refine ⟨db.idsNodup, by simp, ?_⟩
    rintro a ha b hb rfl
    obtain rfl : a = r.id := by simpa using hb
    exact hr ha
  settled := by
    intro h t ht
    rcases List.mem_append.1 ht with ht | ht
    · exact db.settled h t ht
    · obtain rfl := List.mem_singleton.1 ht
      rfl

def has (db : Table) (id : UInt32) : Bool := db.tuples.any (·.id = id)

theorem has_iff {db : Table} {id : UInt32} : db.has id = true ↔ ∃ t ∈ db.tuples, t.id = id := by
  simp [has]

/-- A row of the table is known by its id. -/
theorem eq_of_id {db : Table} {t u : Tuple} (ht : t ∈ db.tuples) (hu : u ∈ db.tuples)
    (h : t.id = u.id) : t = u := List.inj_on_of_nodup_map db.idsNodup ht hu h

theorem mem_newRows {db : Table} {r : Row} :
    r ∈ db.newRows ↔ ∃ t ∈ db.tuples, t.current = r ∧ r.checking = 0 := by
  simp only [newRows, List.mem_filter, List.mem_map, decide_eq_true_eq]
  constructor
  · rintro ⟨⟨t, ht, rfl⟩, h0⟩
    exact ⟨t, ht, rfl, h0⟩
  · rintro ⟨t, ht, rfl, h0⟩
    exact ⟨⟨t, ht, rfl⟩, h0⟩

theorem id_mem_newRows {db : Table} {t : Tuple} (ht : t ∈ db.tuples) :
    t.id ∈ db.newRows.map Row.id ↔ t.current.checking = 0 := by
  rw [List.mem_map]
  refine ⟨?_, fun h0 => ⟨t.current, mem_newRows.2 ⟨t, ht, rfl, h0⟩, t.current_id⟩⟩
  intro ⟨r, hr, hid⟩
  obtain ⟨u, hu, rfl, h0⟩ := mem_newRows.1 hr
  rw [← eq_of_id hu ht (u.current_id.symm.trans hid)]
  exact h0

theorem newRows_ids_nodup (db : Table) : (db.newRows.map Row.id).Nodup := by
  have hsub : (db.newRows.map Row.id).Sublist (db.tuples.map Tuple.id) := by
    have h := (List.filter_sublist (l := db.tuples.map Tuple.current)
      (p := fun r => r.checking = 0)).map Row.id
    rw [List.map_map] at h
    simpa [Function.comp_def, Tuple.current_id, newRows] using h
  exact hsub.nodup db.idsNodup

theorem count_newRows {db : Table} {t : Tuple} (ht : t ∈ db.tuples) :
    (db.newRows.map Row.id).count t.id = if t.current.checking = 0 then 1 else 0 := by
  split_ifs with h0
  · exact List.count_eq_one_of_mem db.newRows_ids_nodup ((id_mem_newRows ht).2 h0)
  · exact List.count_eq_zero.2 fun hmem => h0 ((id_mem_newRows ht).1 hmem)

@[simp] theorem exec_fieldCount (db : Table) (stmt : Stmt) :
    (db.exec stmt).fieldCount = db.fieldCount := by
  cases stmt <;> rfl

theorem exec_tuples (db : Table) (stmt : Stmt) :
    (db.exec stmt).tuples = db.tuples.map (Tuple.exec db.inTransaction stmt) := by
  cases stmt with
  | selectNew => exact (List.map_id db.tuples).symm
  | _ => rfl

/-- No statement adds or removes a row. -/
theorem exec_ids (db : Table) (stmt : Stmt) :
    (db.exec stmt).tuples.map Tuple.id = db.tuples.map Tuple.id := by
  rw [exec_tuples, List.map_map]
  simp [Function.comp_def]

/-- Every row with the id (there is at most one) satisfies `P`. -/
def AllId (db : Table) (id : UInt32) (P : Tuple → Prop) : Prop := ∀ t ∈ db.tuples, t.id = id → P t

theorem AllId.imp {db : Table} {id : UInt32} {P Q : Tuple → Prop} (h : db.AllId id P)
    (hpq : ∀ t, P t → Q t) : db.AllId id Q := fun t ht hid => hpq t (h t ht hid)

theorem AllId.exec {db : Table} {id : UInt32} {P Q : Tuple → Prop} {stmt : Stmt} (h : db.AllId id P)
    (hstep : ∀ t, t.id = id → P t → Q (t.exec db.inTransaction stmt)) :
    (db.exec stmt).AllId id Q := by
  intro t ht hid
  rw [exec_tuples] at ht
  obtain ⟨u, hu, rfl⟩ := List.mem_map.1 ht
  rw [Tuple.exec_id] at hid
  exact hstep u hid (h u hu hid)

/-- A row that comes in does not have the id of one that is there. -/
theorem AllId.insert {db : Table} {id : UInt32} {P : Tuple → Prop} (h : db.AllId id P)
    (hhas : db.has id = true) {r : Row} (hr : r.id ∉ db.tuples.map Tuple.id) :
    (db.insert r hr).AllId id P := by
  intro t ht hid
  rcases List.mem_append.1 ht with ht | ht
  · exact h t ht hid
  · obtain rfl := List.mem_singleton.1 ht
    obtain ⟨u, hu, huid⟩ := has_iff.1 hhas
    exact absurd (List.mem_map.2 ⟨u, hu, huid.trans hid.symm⟩) hr

theorem has_of_ids {db db' : Table} {id : UInt32}
    (h : db'.tuples.map Tuple.id = db.tuples.map Tuple.id) : db'.has id = db.has id := by
  have hmem : ∀ d : Table, d.has id = true ↔ id ∈ d.tuples.map Tuple.id := by
    intro d
    rw [has_iff, List.mem_map]
  rw [Bool.eq_iff_iff, hmem, hmem, h]

@[simp] theorem has_exec (db : Table) (stmt : Stmt) (id : UInt32) :
    (db.exec stmt).has id = db.has id := has_of_ids (db.exec_ids stmt)

theorem has_insert {db : Table} {id : UInt32} (h : db.has id = true) {r : Row}
    (hr : r.id ∉ db.tuples.map Tuple.id) : (db.insert r hr).has id = true := by
  obtain ⟨t, ht, hid⟩ := has_iff.1 h
  exact has_iff.2 ⟨t, List.mem_append_left _ ht, hid⟩

end Table

end JudgeServer
