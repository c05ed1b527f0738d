import Mathlib.Data.List.TakeWhile
import JudgeServer.Library.Decimal
import JudgeServer.SolutionsDb.Extract
import JudgeServer.Utils.Bytes

/-! The decoding loop of `solutions_extract_new` on the texts that MySQL delivers. The
lengths of the two text columns go through fields of 32 and of 8 bits. -/

namespace JudgeServer

open DecimalText

/-- `MYSQL_ROW` with `mysql_fetch_lengths`, of FIELDS_COUNT columns. -/
abbrev MysqlRow := Fin 9 → List UInt8

/-- `isspace` -/
def isSpace (b : UInt8) : Bool := b = 32 || (9 ≤ b.toNat && b.toNat ≤ 13)

/-- `atoi`, for values that an `int` can hold. -/
def atoi (text : List UInt8) : ℤ :=
  match text.dropWhile isSpace with
  | 45 :: text => -value (text.takeWhile digit)
  | 43 :: text => value (text.takeWhile digit)
  | text => value (text.takeWhile digit)

/-- The loop body, for the object at `addr`. -/
def decodeColumns (addr : ℕ) (row : MysqlRow) : Option Solution := do
  let sourceLen := UInt32.ofNat ((row 4).length + 1)
  let source ← memcpy (List.replicate sourceLen.toNat 0) (row 4) (sourceLen.toUInt64 - 1).toNat
  let responseLen := UInt8.ofNat (row 8).length
  -- all of the block of `malloc` is written
  let response ← memcpy (List.replicate responseLen.toNat 0) (row 8) responseLen.toNat
  return {
    addr := addr
    id := .ofInt (atoi (row 0))
    userId := .ofInt (atoi (row 1))
    taskId := .ofInt (atoi (row 2))
    source := source
    sourceLen := sourceLen
    compilerId := .ofInt (atoi (row 5))
    checking := .ofInt (atoi (row 6))
    accepted := atoi (row 7) ≠ 0
    response := response
    responseLen := responseLen }

def decodeLoop (base : ℕ) : List MysqlRow → Option (List Solution)
  | [] => some []
  | row :: rows => do
    let sln ← decodeColumns base row
    let slns ← decodeLoop (base + 1) rows
    return sln :: slns

/-- `solutions_extract_new`, with the rows that `mysql_store_result` gives. -/
def extractColumns (base : ℕ) (rows : List MysqlRow) (c : Session) :
    Option (Extraction × Session) :=
  let q := query .selectNew c
  if q.1 ≠ 0 then some (⟨ERR_DB, []⟩, q.2)
  else if q.2.table.fieldCount ≠ FIELDS_COUNT then some (⟨ERR_SCHEMA, []⟩, q.2)
  else if rows = [] then some (⟨0, []⟩, q.2)
  else (decodeLoop base rows).map fun slns =>
    let st := query .startTransaction q.2
    if st.1 ≠ 0 then (⟨ERR_DB, slns⟩, st.2)
    else
      let u := updateLoop slns st.2
      (⟨u.1, slns⟩, u.2)

/-- The row with its numbers read. -/
def ofColumns (row : MysqlRow) : Row where
  id := .ofInt (atoi (row 0))
  userId := .ofInt (atoi (row 1))
  taskId := .ofInt (atoi (row 2))
  source := row 4
  compilerId := .ofInt (atoi (row 5))
  checking := .ofInt (atoi (row 6))
  ac := .ofInt (atoi (row 7))
  response := row 8

/-- The numeric columns are decimal texts of numbers in range, and the length of the source
with its terminator fits its field. -/
structure WellFormed (row : MysqlRow) : Prop where
  numbers : ∀ i ∈ ([0, 1, 2, 5] : List (Fin 9)), ∃ n < 2 ^ 31, number (row i) = some n
  checking : ∃ n < 2 ^ 8, number (row 6) = some n
  accepted : ∃ n < 2, number (row 7) = some n
  source : (row 4).length < 2 ^ 32 - 1

/-- The object holds what the row says. -/
structure FaithfulRow (row : MysqlRow) (sln : Solution) : Prop where
  id : number (row 0) = some sln.id.toNat
  userId : number (row 1) = some sln.userId.toNat
  taskId : number (row 2) = some sln.taskId.toNat
  compilerId : number (row 5) = some sln.compilerId.toNat
  source : sln.source = row 4 ++ [0]
  sourceLen : sln.sourceLen.toNat = (row 4).length + 1
  response : sln.response = row 8
  responseLen : sln.responseLen.toNat = (row 8).length

theorem digit_bounds {b : UInt8} (h : digit b = true) : 48 ≤ b.toNat ∧ b.toNat ≤ 57 := by
  rwa [digit, Bool.and_eq_true, decide_eq_true_iff, decide_eq_true_iff] at h

/-- On a decimal text `atoi` gives the number. -/
theorem atoi_of_number {text : List UInt8} {n : ℕ} (h : number text = some n) : atoi text = n := by
  unfold number at h
  split_ifs at h with htext
  obtain ⟨hne, hall⟩ := htext
  obtain rfl := Option.some.inj h
  have hdigits : ∀ b ∈ text, digit b = true := List.all_eq_true.1 hall
  have htake : text.takeWhile digit = text := List.takeWhile_eq_self_iff.2 hdigits
  have hfirst : ∀ b rest, text = b :: rest → 48 ≤ b.toNat ∧ b.toNat ≤ 57 := by
    rintro b rest rfl
    exact digit_bounds (hdigits b List.mem_cons_self)
  have hdrop : text.dropWhile isSpace = text := by
    obtain ⟨b, rest, rfl⟩ := List.exists_cons_of_ne_nil hne
    have hb := hfirst b rest rfl
    refine List.dropWhile_cons_of_neg ?_
    simp only [isSpace, Bool.or_eq_true, Bool.and_eq_true, decide_eq_true_iff,
      ← UInt8.toNat_inj]
    have hspace : (32 : UInt8).toNat = 32 := rfl
    omega
  unfold atoi
  rw [hdrop]
  split
  · exact absurd (hfirst _ _ rfl).1 (by decide)
  · exact absurd (hfirst _ _ rfl).1 (by decide)
  · rw [htake]

theorem ofInt_of_number {text : List UInt8} (h : ∃ n < 2 ^ 31, number text = some n) :
    number text = some (UInt32.ofInt (atoi text)).toNat := by
  obtain ⟨n, hn, hread⟩ := h
  have hofInt : UInt32.ofInt (n : ℤ) = UInt32.ofNat n := by
    have hmod : ((n : ℤ) % 2 ^ 32).toNat = n := by omega
    rw [UInt32.ofInt, hmod]
  rw [hread, atoi_of_number hread, hofInt, UInt32.toNat_ofNat_of_lt' (by
    simp only [UInt32.size]
    omega)]

/-- The loop body stays in bounds, and gives the object of the row with its numbers read. -/
theorem decodeColumns_eq {row : MysqlRow} (h : WellFormed row) (addr : ℕ) :
    decodeColumns addr row = some (decodeRow addr (ofColumns row)) := by
  have hfits := h.source
  have hlen : (UInt32.ofNat ((row 4).length + 1)).toNat = (row 4).length + 1 :=
    UInt32.toNat_ofNat_of_lt' (by
      simp only [UInt32.size]
      omega)
  have hcopied : ((UInt32.ofNat ((row 4).length + 1)).toUInt64 - 1).toNat = (row 4).length := by
    have hone : (1 : UInt64).toNat = 1 := rfl
    have hle : 1 ≤ (UInt32.ofNat ((row 4).length + 1)).toUInt64 := by
      rw [UInt64.le_iff_toNat_le, UInt32.toNat_toUInt64, hlen, hone]
      omega
    rw [UInt64.toNat_sub_of_le _ _ hle, UInt32.toNat_toUInt64, hlen, hone, Nat.add_sub_cancel]
  have hsource : memcpy (List.replicate ((row 4).length + 1) 0) (row 4) (row 4).length =
      some (row 4 ++ [0]) := by
    rw [List.replicate_succ', memcpy_whole List.length_replicate le_rfl, List.take_length]
  have hresponse : memcpy (List.replicate (UInt8.ofNat (row 8).length).toNat 0) (row 8)
      (UInt8.ofNat (row 8).length).toNat =
      some ((row 8).take (UInt8.ofNat (row 8).length).toNat) := by
    have hle : (UInt8.ofNat (row 8).length).toNat ≤ (row 8).length := by
      rw [UInt8.toNat_ofNat']
      exact Nat.mod_le _ _
    simpa using memcpy_whole List.length_replicate hle []
  have haccepted : decide (atoi (row 7) ≠ 0) = decide ((ofColumns row).ac ≠ 0) := by
    obtain ⟨n, hn, hnumber⟩ := h.accepted
    simp only [ofColumns, atoi_of_number hnumber]
    interval_cases n <;> rfl
  simp only [decodeColumns, hlen, hcopied, hsource, hresponse, Option.bind_eq_bind,
    Option.bind_some, haccepted]
  rfl

theorem decodeLoop_eq {rows : List MysqlRow} (h : ∀ row ∈ rows, WellFormed row) (base : ℕ) :
    decodeLoop base rows = some (decodeRows base (rows.map ofColumns)) := by
  induction rows generalizing base with
  | nil => rfl
  | cons row rows ih =>
    obtain ⟨hrow, hrows⟩ := List.forall_mem_cons.1 h
    simp only [decodeLoop, decodeColumns_eq hrow, ih hrows, Option.bind_eq_bind, Option.bind_some]
    rfl

/-- On the texts of the new rows of the table, the function does what it does on these. -/
theorem extractColumns_eq {rows : List MysqlRow} {c : Session} (h : ∀ row ∈ rows, WellFormed row)
    (hrows : rows.map ofColumns = c.table.newRows) (base : ℕ) :
    extractColumns base rows c = some (solutionsExtractNew base c) := by
  have htable : (query .selectNew c).2.table = c.table := by
    unfold query
    split <;> rfl
  have hnil : rows = [] ↔ c.table.newRows = [] := by
    rw [← hrows, List.map_eq_nil_iff]
  unfold extractColumns solutionsExtractNew
  rw [decodeLoop_eq h, hrows]
  simp only [htable, hnil, Option.map_some]
  split_ifs <;> rfl

/-- What the object of a row has right, and when it has the response. -/
theorem faithfulRow_iff {row : MysqlRow} (h : WellFormed row) (addr : ℕ) :
    FaithfulRow row (decodeRow addr (ofColumns row)) ↔ (row 8).length ≤ 255 := by
  have hresponse : (decodeRow addr (ofColumns row)).responseLen.toNat = (row 8).length % 256 :=
    UInt8.toNat_ofNat' ..
  constructor
  · intro hfaithful
    have hlen := hfaithful.responseLen
    omega
  · intro hle
    have hmod : (row 8).length % 256 = (row 8).length := Nat.mod_eq_of_lt (by omega)
    rw [hmod] at hresponse
    exact {
      id := ofInt_of_number (h.numbers 0 (by simp))
      userId := ofInt_of_number (h.numbers 1 (by simp))
      taskId := ofInt_of_number (h.numbers 2 (by simp))
      compilerId := ofInt_of_number (h.numbers 5 (by simp))
      source := rfl
      sourceLen := UInt32.toNat_ofNat_of_lt' (by
        have hfits := h.source
        simp only [UInt32.size, ofColumns]
        omega)
      response := List.take_of_length_le hresponse.ge
      responseLen := hresponse }

/-- A result set is faithfully decoded exactly when every row is. -/
theorem faithful_decodeRows_iff {rows : List MysqlRow} (h : ∀ row ∈ rows, WellFormed row)
    (base : ℕ) : List.Forall₂ FaithfulRow rows (decodeRows base (rows.map ofColumns)) ↔
      ∀ row ∈ rows, (row 8).length ≤ 255 := by
  induction rows generalizing base with
  | nil => simp [decodeRows]
  | cons row rows ih =>
    obtain ⟨hrow, hrows⟩ := List.forall_mem_cons.1 h
    rw [List.map_cons, decodeRows, List.forall₂_cons, ih hrows, faithfulRow_iff hrow,
      List.forall_mem_cons]

/-- Whatever queries fail, the accesses stay in bounds, and a list that is returned comes
from the loop. -/
theorem extractColumns_slns {rows : List MysqlRow} (h : ∀ row ∈ rows, WellFormed row) (base : ℕ)
    (c : Session) : ∃ e c', extractColumns base rows c = some (e, c') ∧
      (e.ret = 0 → e.slns = decodeRows base (rows.map ofColumns)) := by
  unfold extractColumns
  rw [decodeLoop_eq h]
  dsimp only [Option.map_some]
  split_ifs with hselect hschema hrows hstart
  · exact ⟨_, _, rfl, fun hret => absurd hret (by decide)⟩
  · exact ⟨_, _, rfl, fun hret => absurd hret (by decide)⟩
  · refine ⟨_, _, rfl, fun _ => ?_⟩
    rw [hrows]
    rfl
  · exact ⟨_, _, rfl, fun _ => rfl⟩
  · exact ⟨_, _, rfl, fun _ => rfl⟩

/-- A connection on which every query succeeds. -/
def healthySession : Session := ⟨⟨[], false, FIELDS_COUNT, List.nodup_nil, by simp⟩, []⟩

theorem query_healthy {c : Session} (h : c.outcomes = []) (stmt : Stmt) :
    query stmt c = (0, ⟨c.table.exec stmt, []⟩) := by
  rw [query, h]
  rfl

theorem updateLoop_healthy {c : Session} (h : c.outcomes = []) (slns : List Solution) :
    (updateLoop slns c).1 = 0 := by
  induction slns generalizing c with
  | nil => simp [updateLoop, query_healthy h]
  | cons sln slns ih => simp [updateLoop, query_healthy h, ih]

theorem extractColumns_healthy {rows : List MysqlRow} (h : ∀ row ∈ rows, WellFormed row) :
    ∃ e c', extractColumns 0 rows healthySession = some (e, c') ∧ e.ret = 0 := by
  have hselect : query .selectNew healthySession = (0, healthySession) := query_healthy rfl _
  have hstart := query_healthy (c := healthySession) rfl .startTransaction
  unfold extractColumns
  rw [decodeLoop_eq h, hselect]
  dsimp only [Option.map_some]
  split_ifs with hzero hschema hrows hstarted
  · exact absurd rfl hzero
  · exact absurd rfl hschema
  · exact ⟨_, _, rfl, rfl⟩
  · rw [hstart] at hstarted
    exact absurd rfl hstarted
  · refine ⟨_, _, rfl, ?_⟩
    rw [hstart]
    exact updateLoop_healthy rfl _

/-- Whatever queries fail, a successful call returns an object for each row, in their order
and with what they say. -/
def ExtractsFaithfully (rows : List MysqlRow) : Prop :=
  ∀ base c, ∃ e c', extractColumns base rows c = some (e, c') ∧
    (e.ret = 0 → List.Forall₂ FaithfulRow rows e.slns)

theorem short_of_faithful {rows : List MysqlRow} (h : ∀ row ∈ rows, WellFormed row)
    (hfaithful : ExtractsFaithfully rows) : ∀ row ∈ rows, (row 8).length ≤ 255 := by
  obtain ⟨e, c', hextract, hrows⟩ := hfaithful 0 healthySession
  obtain ⟨e₁, c₁, hextract₁, hret⟩ := extractColumns_healthy h
  obtain ⟨e₂, c₂, hextract₂, hslns⟩ := extractColumns_slns h 0 healthySession
  obtain ⟨rfl, rfl⟩ : e = e₁ ∧ c' = c₁ := by simpa [hextract] using hextract₁
  obtain ⟨rfl, rfl⟩ : e = e₂ ∧ c' = c₂ := by simpa [hextract] using hextract₂
  have hdecoded := hrows hret
  rw [hslns hret] at hdecoded
  exact (faithful_decodeRows_iff h 0).1 hdecoded

/-- Row decoding is faithful exactly for the result sets whose responses fit eight bits. -/
theorem extracts_faithfully_iff (rows : List MysqlRow) (h : ∀ row ∈ rows, WellFormed row) :
    ExtractsFaithfully rows ↔ ∀ row ∈ rows, (row 8).length ≤ 255 := by
  refine ⟨short_of_faithful h, fun hshort base c => ?_⟩
  obtain ⟨e, c', hextract, hslns⟩ := extractColumns_slns h base c
  refine ⟨e, c', hextract, fun hret => ?_⟩
  rw [hslns hret]
  exact (faithful_decodeRows_iff h base).2 hshort

/-- Solution 1 of user 1 for task 1, for compiler 5. -/
def sampleColumns (source response : List UInt8) : MysqlRow := fun i =>
  [[49], [49], [49], [], source, [53], [48], [48], response].getD i []

theorem sampleColumns_wellFormed {source : List UInt8} (hsource : source.length < 2 ^ 32 - 1)
    (response : List UInt8) : WellFormed (sampleColumns source response) where
  numbers i hi := by
    simp only [List.mem_cons, List.not_mem_nil, or_false] at hi
    rcases hi with rfl | rfl | rfl | rfl
    · exact ⟨1, by decide, rfl⟩
    · exact ⟨1, by decide, rfl⟩
    · exact ⟨1, by decide, rfl⟩
    · exact ⟨5, by decide, rfl⟩
  checking := ⟨0, by decide, rfl⟩
  accepted := ⟨0, by decide, rfl⟩
  source := hsource

/-- A row with a response, and one with a longer source and none. -/
theorem extracts_faithfully_accepted :
    ExtractsFaithfully [sampleColumns [97] [65, 67], sampleColumns [97, 98, 99] []] := by
  refine (extracts_faithfully_iff _ fun row hrow => ?_).2 fun row hrow => ?_
  · rcases List.mem_pair.1 hrow with rfl | rfl
    · exact sampleColumns_wellFormed (by decide) _
    · exact sampleColumns_wellFormed (by decide) _
  · rcases List.mem_pair.1 hrow with rfl | rfl
    · exact (by decide : [65, 67].length ≤ 255)
    · exact Nat.zero_le 255

/-- Of a response of 256 bytes nothing is left. -/
theorem long_response_lost :
    WellFormed (sampleColumns [97] (List.replicate 256 65)) ∧
      ¬ ExtractsFaithfully [sampleColumns [97] (List.replicate 256 65)] := by
  have hlength : ([97] : List UInt8).length < 2 ^ 32 - 1 := by decide
  have hwell := sampleColumns_wellFormed hlength (List.replicate 256 65)
  refine ⟨hwell, fun hfaithful => ?_⟩
  have hshort := short_of_faithful (fun row hrow => by
    obtain rfl := List.mem_singleton.1 hrow
    exact hwell) hfaithful _ List.mem_cons_self
  have hlen : (sampleColumns [97] (List.replicate 256 65) 8).length = 256 := List.length_replicate
  omega

end JudgeServer
