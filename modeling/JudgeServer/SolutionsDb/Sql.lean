import JudgeServer.Library.Codec
import JudgeServer.Library.Decimal
import JudgeServer.Client.Verdict

/-! The texts of the statements in solutions_db.c. `snprintf` cuts what does not fit, and
a cut in the where clause would address another row; so the texts are compared with what
the buffers hold, and read back. -/

namespace JudgeServer

open Codec DecimalText

def postResultSql (slnId : UInt32) (accepted : UInt8) (responseText : List UInt8) : List UInt8 :=
  cstr "update solutions set checking = 2, ac = " ++ digits accepted.toNat ++
    cstr ", response = '" ++ responseText ++ cstr "' where id = " ++ digits slnId.toNat

def setCheckingSql (id : UInt32) : List UInt8 :=
  cstr "update solutions set checking = 1 where id = " ++ digits id.toNat

/-- The text that a statement is sent with, after `snprintf` into 100 bytes where it has
arguments. -/
def Stmt.sql : Stmt → List UInt8
  | .selectNew => cstr "select * from solutions where checking = 0"
  | .startTransaction => cstr "start transaction"
  | .setChecking id => snprintf 100 (setCheckingSql id)
  | .postResult id accepted text => snprintf 100 (postResultSql id accepted text)
  | .rollback => cstr "rollback"
  | .commit => cstr "commit"

/-- What `post_result` means a code to say: whether it is accepted, and the text. -/
def verdict (resultCode testNumber : UInt8) : Option (UInt8 × List UInt8) :=
  let withTest (text : String) := some (0, cstr text ++ digits testNumber.toNat)
  match resultCode.toNat with
  | 0 => some (1, cstr "AC")
  | 1 => withTest "WA "
  | 2 => withTest "MLE "
  | 3 => withTest "TLE "
  | 4 => withTest "PE "
  | 5 => withTest "RE "
  | 6 => some (0, cstr "FL")
  | 7 => some (0, cstr "CE")
  | _ => none

/-- `'` -/
def QUOTE : UInt8 := 39

/-- `,` -/
def COMMA : UInt8 := 44

/-- The number behind `ac =` and the literal behind `response =`. -/
def postResultFields : Decoder UInt8 (List UInt8 × List UInt8) :=
  andThen (literal (cstr "update solutions set checking = 2, ac = ")) fun _ =>
  andThen (upTo COMMA) fun accepted =>
  andThen (literal (cstr " response = '")) fun _ =>
  andThen (upTo QUOTE) fun text =>
  andThen (literal (cstr " where id = ")) fun _ => yield (accepted, text)

/-- The statement read back: `ac`, the response literal, and the id of the where clause. -/
def parsePostResult (sql : List UInt8) : Option (ℕ × List UInt8 × ℕ) :=
  match postResultFields sql with
  | some ((accepted, text), id) => do return (← number accepted, text, ← number id)
  | none => none

def parseSetChecking (sql : List UInt8) : Option ℕ :=
  match literal (cstr "update solutions set checking = 1 where id = ") sql with
  | some (_, id) => number id
  | none => none

/-- The statement fits its buffer with the terminator, and says what it should. -/
structure SentWhole (id : UInt32) (accepted : UInt8) (text : List UInt8) : Prop where
  fits : (postResultSql id accepted text).length + 1 ≤ 100
  sent : (Stmt.postResult id accepted text).sql = postResultSql id accepted text
  parsed : parsePostResult (Stmt.postResult id accepted text).sql =
    some (accepted.toNat, text, id.toNat)
  accepted : accepted = 1 ↔ text = cstr "AC"

theorem snprintf_whole {size : ℕ} {text : List UInt8} (h : text.length + 1 ≤ size) :
    snprintf size text = text := List.take_of_length_le (by omega)

theorem digits_length_id (id : UInt32) : (digits id.toNat).length ≤ 10 := by
  have hlt := id.toNat_lt
  exact (digits_length_le_iff (by omega)).2 (by omega)

theorem digits_length_byte (b : UInt8) : (digits b.toNat).length ≤ 3 := by
  have hlt := b.toNat_lt
  exact (digits_length_le_iff (by omega)).2 (by omega)

theorem reads_postResultFields {accepted text : List UInt8} (haccepted : COMMA ∉ accepted)
    (htext : QUOTE ∉ text) :
    Codec.Reads postResultFields
      (cstr "update solutions set checking = 2, ac = " ++ ((accepted ++ [COMMA]) ++
        (cstr " response = '" ++ ((text ++ [QUOTE]) ++ (cstr " where id = " ++ [])))))
      (accepted, text) :=
  (reads_literal _).andThen <| (reads_upTo haccepted).andThen <| (reads_literal _).andThen <|
    (reads_upTo htext).andThen <| (reads_literal _).andThen <| reads_yield _

theorem parse_postResultSql {id : UInt32} {accepted : UInt8} {text : List UInt8}
    (htext : QUOTE ∉ text) :
    parsePostResult (postResultSql id accepted text) = some (accepted.toNat, text, id.toNat) := by
  have hcomma : COMMA ∉ digits accepted.toNat := not_mem_digits rfl _
  have hfields := reads_postResultFields hcomma htext (digits id.toNat)
  -- the comma and the quote that end the two fields open the next literal
  have hresponse : cstr ", response = '" = COMMA :: cstr " response = '" := rfl
  have hwhere : cstr "' where id = " = QUOTE :: cstr " where id = " := rfl
  have hread : ∀ n, number (digits n) = some n := number_digits
  simp only [List.append_assoc, List.cons_append, List.nil_append, List.append_nil] at hfields
  rw [parsePostResult, postResultSql, hresponse, hwhere]
  simp only [List.append_assoc, List.cons_append, hfields, hread]
  rfl

theorem sent_whole {id : UInt32} {accepted : UInt8} {text : List UInt8} (hlen : text.length < 10)
    (htext : QUOTE ∉ text) (hac : accepted = 1 ↔ text = cstr "AC") : SentWhole id accepted text := by
  have hfits : (postResultSql id accepted text).length + 1 ≤ 100 := by
    have hid := digits_length_id id
    have haccepted := digits_length_byte accepted
    have hverb : (cstr "update solutions set checking = 2, ac = ").length = 40 := rfl
    have hresponse : (cstr ", response = '").length = 14 := rfl
    have hwhere : (cstr "' where id = ").length = 13 := rfl
    simp only [postResultSql, List.length_append, hverb, hresponse, hwhere]
    omega
  have hsent : (Stmt.postResult id accepted text).sql = postResultSql id accepted text :=
    snprintf_whole hfits
  exact ⟨hfits, hsent, by rw [hsent, parse_postResultSql htext], hac⟩

/-- A verdict with the number of a test is not cut either. -/
theorem sent_withTest {text : String} (hlow : 3 ≤ (cstr text).length)
    (hhigh : (cstr text).length ≤ 4) (hquote : QUOTE ∉ cstr text) (id : UInt32)
    (testNumber : UInt8) :
    (cstr text ++ digits testNumber.toNat).length + 1 ≤ 10 ∧
      SentWhole id 0 (cstr text ++ digits testNumber.toNat) := by
  have htest := digits_length_byte testNumber
  have hfits : (cstr text ++ digits testNumber.toNat).length + 1 ≤ 10 := by
    rw [List.length_append]
    omega
  refine ⟨hfits, sent_whole (by omega) ?_ ?_⟩
  · rw [List.mem_append, not_or]
    exact ⟨hquote, not_mem_digits rfl _⟩
  · refine iff_of_false (by decide) fun heq => ?_
    have htwo : (cstr "AC").length = 2 := rfl
    have hlength := congrArg List.length heq
    rw [List.length_append, htwo] at hlength
    omega

/-- No text of `post_result` is cut in its 10 bytes. -/
theorem postResult_verdict (id : UInt32) (code test : UInt8) :
    postResult id code test = (verdict code test).map fun v => .postResult id v.1 v.2 := by
  have htest := digits_length_byte test
  have hwhole : ∀ text : String, (cstr text).length ≤ 4 →
      snprintf 10 (cstr text ++ digits test.toNat) = cstr text ++ digits test.toNat := by
    intro text hlen
    refine snprintf_whole ?_
    rw [List.length_append]
    omega
  unfold postResult verdict
  dsimp only
  rw [hwhole "WA " (by decide), hwhole "MLE " (by decide), hwhole "TLE " (by decide),
    hwhole "PE " (by decide), hwhole "RE " (by decide)]
  generalize code.toNat = n
  match n with
  | 0 | 1 | 2 | 3 | 4 | 5 | 6 | 7 => rfl
  | n + 8 => rfl

theorem verdict_whole {code test accepted : UInt8} {text : List UInt8}
    (h : verdict code test = some (accepted, text)) (id : UInt32) :
    text.length + 1 ≤ 10 ∧ SentWhole id accepted text := by
  unfold verdict at h
  dsimp only at h
  have hplain : ∀ {b : UInt8} {t : List UInt8}, t.length = 2 → QUOTE ∉ t →
      (b = 1 ↔ t = cstr "AC") → t.length + 1 ≤ 10 ∧ SentWhole id b t := by
    intro b t hlen hquote hac
    exact ⟨by omega, sent_whole (by omega) hquote hac⟩
  split at h
  case h_1 | h_7 | h_8 =>
    cases h
    exact hplain rfl (by decide) (by decide)
  case h_9 => cases h
  all_goals
    cases h
    exact sent_withTest (by decide) (by decide) (by decide) id test

theorem setChecking_whole (id : UInt32) :
    (setCheckingSql id).length + 1 ≤ 100 ∧ (Stmt.setChecking id).sql = setCheckingSql id ∧
      parseSetChecking (Stmt.setChecking id).sql = some id.toNat := by
  have hfits : (setCheckingSql id).length + 1 ≤ 100 := by
    have hid := digits_length_id id
    have hverb : (cstr "update solutions set checking = 1 where id = ").length = 45 := rfl
    rw [setCheckingSql, List.length_append, hverb]
    omega
  have hsent : (Stmt.setChecking id).sql = setCheckingSql id := snprintf_whole hfits
  have hread : ∀ n, number (digits n) = some n := number_digits
  refine ⟨hfits, hsent, ?_⟩
  rw [hsent, parseSetChecking, setCheckingSql, reads_literal]
  exact hread _

/-- No statement is truncated: the texts of `post_result` and the statements with
arguments fit their buffers, and the id, the literal and `ac` come out as given. -/
theorem statements_whole (id : UInt32) (code test : UInt8) :
    postResult id code test = (verdict code test).map (fun v => .postResult id v.1 v.2) ∧
      (∀ accepted text, verdict code test = some (accepted, text) →
        text.length + 1 ≤ 10 ∧ SentWhole id accepted text) ∧
      SentWhole id 0 (cstr "FL") ∧
      (setCheckingSql id).length + 1 ≤ 100 ∧ (Stmt.setChecking id).sql = setCheckingSql id ∧
      parseSetChecking (Stmt.setChecking id).sql = some id.toNat :=
  ⟨postResult_verdict id code test, fun _ _ h => verdict_whole h id,
    sent_whole (by decide) (by decide) (by decide), setChecking_whole id⟩

end JudgeServer
