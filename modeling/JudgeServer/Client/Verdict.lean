import JudgeServer.Library.Decimal
import JudgeServer.SolutionsDb.Polls
import JudgeServer.Client.Outstanding

/-! The OP_RESULT branch of `client_loop` with `post_result`: when the solution it
frees has its verdict in the database. -/

namespace JudgeServer

open DecimalText Transition

/-- The bytes of a string literal. -/
def cstr (s : String) : List UInt8 := s.toList.map fun ch => UInt8.ofNat ch.toNat

/-- What `snprintf` leaves of a text in a buffer of `size` bytes. -/
def snprintf (size : ℕ) (text : List UInt8) : List UInt8 := text.take (size - 1)

/-- The statement `post_result` sends, if its switch has a case for the code. -/
def postResult (solutionId : UInt32) (resultCode testNumber : UInt8) : Option Stmt :=
  let withTest (verdict : String) : Stmt :=
    .postResult solutionId 0 (snprintf 10 (cstr verdict ++ digits testNumber.toNat))
  match resultCode.toNat with
  | 0 => some (.postResult solutionId 1 (cstr "AC"))
  | 1 => some (withTest "WA ")
  | 2 => some (withTest "MLE ")
  | 3 => some (withTest "TLE ")
  | 4 => some (withTest "PE ")
  | 5 => some (withTest "RE ")
  | 6 => some (.postResult solutionId 0 (cstr "FL"))
  | 7 => some (.postResult solutionId 0 (cstr "CE"))
  | _ => none

/-- The codes with a case set the row of the given id, the others nothing. -/
theorem postResult_cases (id : UInt32) (code test : UInt8) :
    (code.toNat < 8 ∧ ∃ accepted text, postResult id code test = some (.postResult id accepted text)) ∨
      (8 ≤ code.toNat ∧ postResult id code test = none) := by
  unfold postResult
  generalize code.toNat = n
  rcases Nat.lt_or_ge n 8 with hn | hn
  · left
    refine ⟨hn, ?_⟩
    interval_cases n <;> exact ⟨_, _, rfl⟩
  · right
    refine ⟨hn, ?_⟩
    split <;> first | omega | rfl

/-- Lines 217 to 230: the verdict is posted, the slot cleared and its content freed.
The result has the client, the freed object and the connection afterwards. -/
def opResult (c : Client) (solutionId : UInt32) (resultCode testNumber : UInt8) (conn : Session) :
    Client × Option Solution × Session :=
  (c.clearChecking, c.checkingSolution,
    match postResult solutionId resultCode testNumber with
    | some stmt => (query stmt conn).2
    | none => conn)

/-- The branch is two steps of the loop. -/
theorem opResult_run (c : Client) (e : Errno) (id : UInt32) (code test : UInt8) (conn : Session)
    (ok : Bool) :
    Run loopStep (c, ⟨.posting id code test, e⟩) [.post ok, .clear]
      ((opResult c id code test conn).1, ⟨.top, e⟩) :=
  Run.iff_foldlM.2 rfl

/-- The row of solution `id` is at `checking = 2`. -/
def Judged (db : Table) (id : UInt32) : Prop :=
  ∃ t ∈ db.tuples, t.id = id ∧ t.current.checking = 2

/-- The solution is released with its verdict recorded, or it is not released. -/
structure ReleasedJudged (sln : Solution) (r : Client × Option Solution × Session) : Prop where
  released : r.1.checkingSolution = none → r.2.1 = some sln → Judged r.2.2.table sln.id
  kept : ¬ (r.1.checkingSolution = none ∧ r.2.1 = some sln) →
    r.1.checkingSolution = some sln ∨ sln ∈ r.1.solutionsQueue

theorem judged_update (db : Table) (id : UInt32) (accepted : UInt8) (text : List UInt8) :
    Judged (db.exec (.postResult id accepted text)) id ↔ db.has id = true := by
  simp only [Judged, Table.exec, Table.update, List.mem_map, Table.has_iff]
  refine ⟨?_, ?_⟩
  · rintro ⟨t, ⟨u, hu, ht⟩, hid, -⟩
    refine ⟨u, hu, ?_⟩
    rw [← ht, Tuple.update_id] at hid
    exact hid
  · rintro ⟨t, ht, hid⟩
    refine ⟨_, ⟨t, ht, rfl⟩, by rw [Tuple.update_id, hid], ?_⟩
    rw [Tuple.update_current hid, Row.postResult_checking]

/-- The solution a result packet answers is released with its verdict exactly when the
code is one of the eight known ones and the update of its row succeeds, or when the
row has a verdict already. -/
theorem released_judged_iff (c : Client) (sln : Solution) (code test : UInt8) (conn : Session)
    (hslot : c.checkingSolution = some sln) :
    ReleasedJudged sln (opResult c sln.id code test conn) ↔
      (code.toNat < 8 ∧ conn.outcomes.headD true = true ∧ conn.table.has sln.id = true) ∨
        Judged conn.table sln.id := by
  have hreleased : ReleasedJudged sln (opResult c sln.id code test conn) ↔
      Judged (opResult c sln.id code test conn).2.2.table sln.id := by
    refine ⟨fun h => h.released rfl hslot, fun h => ⟨fun _ _ => h, fun hnot => ?_⟩⟩
    exact absurd ⟨rfl, hslot⟩ hnot
  rw [hreleased]
  simp only [opResult]
  rcases postResult_cases sln.id code test with ⟨hcode, accepted, text, hpost⟩ | ⟨hcode, hpost⟩
  · rw [hpost]
    cases hok : conn.outcomes.headD true with
    | true =>
      simp only [query_ok hok, judged_update, hcode, true_and]
      refine ⟨Or.inl, ?_⟩
      intro h
      rcases h with h | ⟨t, ht, hid, -⟩
      · exact h
      · exact Table.has_iff.2 ⟨t, ht, hid⟩
    | false => simp [query_fail hok]
  · have hnot : ¬ code.toNat < 8 := by omega
    rw [hpost]
    simp [hnot]

/-- A dispatched row and the client that checks it. -/
def dispatchedRow : Table where
  tuples := [.fresh { sampleRow 1 with checking := 1 }]
  inTransaction := false
  fieldCount := 9
  idsNodup := by decide
  settled := by simp [Tuple.fresh]

def checkingClient : Client := { clientCreate 1 with checkingSolution := some (sampleSolution 0 1) }

/-- An accepted verdict that the database takes. -/
theorem released_judged_accepted :
    checkingClient.checkingSolution = some (sampleSolution 0 1) ∧
      ReleasedJudged (sampleSolution 0 1) (opResult checkingClient 1 0 3 ⟨dispatchedRow, []⟩) :=
  ⟨rfl, (released_judged_iff checkingClient (sampleSolution 0 1) 0 3 ⟨dispatchedRow, []⟩ rfl).2
    (Or.inl ⟨by decide, rfl, by decide⟩)⟩

/-- With code 8 no query is made, with code 0 it may fail: the solution is gone and its
row stays at 1. -/
theorem released_unjudged :
    ¬ ReleasedJudged (sampleSolution 0 1) (opResult checkingClient 1 8 3 ⟨dispatchedRow, []⟩) ∧
      ¬ ReleasedJudged (sampleSolution 0 1)
        (opResult checkingClient 1 0 3 ⟨dispatchedRow, [false]⟩) := by
  refine ⟨fun h => ?_, fun h => ?_⟩
  · obtain ⟨t, ht, -, htwo⟩ := h.released rfl rfl
    obtain rfl := List.mem_singleton.1 ht
    exact absurd htwo (by decide)
  · obtain ⟨t, ht, -, htwo⟩ := h.released rfl rfl
    obtain rfl := List.mem_singleton.1 ht
    exact absurd htwo (by decide)

end JudgeServer
