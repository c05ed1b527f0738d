import JudgeServer.Utils.Chunks
import JudgeServer.Client.Sending

/-! `process_solutions` as a function of the outcomes of its `send` calls, which come in
rounds: one round for each `send_all` of the retry loop. -/

namespace JudgeServer

open Transition

/-- The retry loop: the value of the call, the client and `errno` after it. It is `none`
on rounds that are not those of one whole call. -/
def sendLoop (sln : Solution) (c : Client) (errno : Errno) :
    List (List Call) → Option (ℤ × Client × Errno)
  | [] => none
  | calls :: rounds =>
    match sendAll (UInt32.ofNat (totalLength sln)) calls with
    | none => none
    | some t =>
      let errno' := t.errno.getD errno
      match sendRound c errno' (totalLength sln) t with
      | (c', some status) => if rounds = [] then some (status, c', errno') else none
      | (c', none) => sendLoop sln c' errno' rounds

def processSolutions (c : Client) (errno : Errno) (rounds : List (List Call)) :
    Option (ℤ × Client × Errno) :=
  match c.popSolution with
  | none => if rounds = [] then some (0, c, errno) else none
  | some (sln, c') => sendLoop sln c' errno rounds

/-- Nothing is queued, or the first solution of the queue goes into the retry loop. -/
theorem processSolutions_cases {c : Client} {errno : Errno} {rounds : List (List Call)}
    {r : ℤ × Client × Errno} (h : processSolutions c errno rounds = some r) :
    c.solutionsQueue = [] ∧ rounds = [] ∧ r = (0, c, errno) ∨
      ∃ sln rest, c.solutionsQueue = sln :: rest ∧ sendLoop sln { c with
        solutionsQueue := rest
        checkingSolution := some sln
        sendPkt := solutionPacket sln } errno rounds = some r := by
  unfold processSolutions Client.popSolution at h
  cases hqueue : c.solutionsQueue with
  | nil =>
    simp only [hqueue] at h
    split at h
    · rename_i hnil
      exact Or.inl ⟨rfl, hnil, (Option.some.inj h).symm⟩
    · cases h
  | cons sln rest =>
    simp only [hqueue] at h
    exact Or.inr ⟨sln, rest, rfl, h⟩

/-- What a round of the retry loop comes to. -/
inductive RoundRule (c : Client) (errno : Errno) (total : ℕ) (t : Transfer) :
    Client × Option ℤ → Prop
  | hang (hret : t.ret ≤ 0) (htime : errno.isTimeout = true)
      (hmax : c.lastSendDelay + SEND_TIMEOUT_SEC ≥ SEND_MAX_TIMEOUT) :
      RoundRule c errno total t
        ({ c with lastSendDelay := c.lastSendDelay + SEND_TIMEOUT_SEC }, some CLI_SENDTIMEOUT)
  | delay (hret : t.ret ≤ 0) (htime : errno.isTimeout = true)
      (hmax : c.lastSendDelay + SEND_TIMEOUT_SEC < SEND_MAX_TIMEOUT) :
      RoundRule c errno total t
        ({ c with lastSendDelay := c.lastSendDelay + SEND_TIMEOUT_SEC }, none)
  | reset (hret : t.ret ≤ 0) (herrno : errno = .ECONNRESET) :
      RoundRule c errno total t (c, some CLI_CONNERROR)
  | again (hret : t.ret ≤ 0) (htime : errno.isTimeout = false) (herrno : errno ≠ .ECONNRESET) :
      RoundRule c errno total t (c, none)
  | short (hret : 0 < t.ret) (hshort : t.ret < total) :
      RoundRule c errno total t (c, some CLI_CONNERROR)
  | whole (hret : 0 < t.ret) (hwhole : total ≤ t.ret) : RoundRule c errno total t (c, some 0)

theorem sendRound_rule (c : Client) (errno : Errno) (total : ℕ) (t : Transfer) :
    RoundRule c errno total t (sendRound c errno total t) := by
  simp only [sendRound]
  split_ifs with hret htime hmax hreset hshort
  · exact .hang hret htime hmax
  · exact .delay hret htime (UInt16.not_le.1 hmax)
  · exact .reset hret hreset
  · exact .again hret (Bool.eq_false_iff.2 htime) hreset
  · exact .short (not_le.1 hret) hshort
  · exact .whole (not_le.1 hret) (not_lt.1 hshort)

/-- One round and the rest of the loop. -/
theorem sendLoop_cons {sln : Solution} {c : Client} {errno : Errno} {calls : List Call}
    {rounds : List (List Call)} {r : ℤ × Client × Errno}
    (h : sendLoop sln c errno (calls :: rounds) = some r) :
    ∃ t next, sendAll (UInt32.ofNat (totalLength sln)) calls = some t ∧
      RoundRule c (t.errno.getD errno) (totalLength sln) t next ∧
      sendRound c (t.errno.getD errno) (totalLength sln) t = next ∧
      ((∃ status, next.2 = some status ∧ rounds = [] ∧ r = (status, next.1, t.errno.getD errno)) ∨
        next.2 = none ∧ sendLoop sln next.1 (t.errno.getD errno) rounds = some r) := by
  simp only [sendLoop] at h
  split at h
  · cases h
  rename_i t ht
  refine ⟨t, _, ht, sendRound_rule .., rfl, ?_⟩
  split at h
  · rename_i c' status hround
    rw [hround]
    split at h
    · rename_i hnil
      obtain rfl := Option.some.inj h
      exact Or.inl ⟨status, rfl, hnil, rfl⟩
    · cases h
  · rename_i c' hround
    rw [hround]
    exact Or.inr ⟨rfl, h⟩

theorem sendLoop_run {sln : Solution} {c c' : Client} {e e' : Errno} {rounds : List (List Call)}
    {ret : ℤ} (h : sendLoop sln c e rounds = some (ret, c', e')) :
    Run loopStep (c, ⟨.sending sln, e⟩) (rounds.map LoopEv.send)
      (c', ⟨if ret = CLI_SENDTIMEOUT ∨ ret = CLI_CONNERROR then .removing else .recvLen, e'⟩) := by
  induction rounds generalizing c e with
  | nil => cases h
  | cons calls rounds ih =>
    obtain ⟨t, next, hsend, -, hround, hend⟩ := sendLoop_cons h
    have hstep := loopStep_send hsend c e
    rcases hend with ⟨status, hstatus, rfl, hr⟩ | ⟨hnone, hrest⟩
    · obtain ⟨rfl, rfl, rfl⟩ : ret = status ∧ c' = next.1 ∧ e' = t.errno.getD e := by
        simpa using hr
      simp only [afterSend, hround, hstatus] at hstep
      exact Run.single hstep
    · simp only [afterSend, hround, hnone] at hstep
      exact Run.cons_iff.2 ⟨_, hstep, ih hrest⟩

/-- The function does what the steps of the client loop come to. -/
theorem processSolutions_run {c c' : Client} {e e' : Errno} {rounds : List (List Call)} {ret : ℤ}
    (h : processSolutions c e rounds = some (ret, c', e')) :
    Run loopStep (c, ⟨.process, e⟩) (.process :: rounds.map LoopEv.send)
      (c', ⟨if ret = CLI_SENDTIMEOUT ∨ ret = CLI_CONNERROR then .removing else .recvLen, e'⟩) := by
  unfold processSolutions at h
  split at h
  · rename_i hpop
    split at h
    · rename_i hnil
      obtain ⟨rfl, rfl, rfl⟩ : 0 = ret ∧ c = c' ∧ e = e' := by simpa using h
      subst hnil
      exact Run.single (loopStep_idle hpop e)
    · cases h
  · rename_i sln c₁ hpop
    exact Run.cons_iff.2 ⟨(c₁, ⟨.sending sln, e⟩), loopStep_pop hpop e, sendLoop_run h⟩

/-! `transfer_all` over every sequence of outcomes, and what it means for the loop. -/

/-- The transfer returns `len` after all of the buffer, or it returns the first value that
is not positive after a proper part of it. -/
inductive Exact (len : ℕ) (calls : List Call) (t : Transfer) (bytes buffer : List UInt8) : Prop
  | whole (hall : ∀ c ∈ calls, 0 < c.ret) (hret : t.ret = len) (hbytes : bytes = buffer)
  | stopped {before : List Call} {last : Call} (hcalls : calls = before ++ [last])
      (hall : ∀ c ∈ before, 0 < c.ret) (hlast : last.ret ≤ 0) (hret : t.ret = last.ret)
      (hpre : bytes <+: buffer) (hproper : bytes ≠ buffer)

theorem transferAll_exact {len : UInt32} {calls : List Call} {t : Transfer}
    {bytes buffer : List UInt8} (h : transferAll len calls = some t)
    (hbuf : buffer.length = len.toNat) (hpre : bytes <+: buffer)
    (hbytes : bytes.length = movedBy calls) : Exact len.toNat calls t bytes buffer := by
  obtain ⟨hmoved, hend⟩ := transferLoop_stops h
  rcases hend with ⟨hall, hsum, hret, -⟩ | ⟨before, last, hcalls, hall, hlast, hlt, hret, -⟩
  · refine .whole hall (by omega) ?_
    exact hpre.eq_of_length (by omega)
  · refine .stopped hcalls hall hlast hret hpre ?_
    rintro rfl
    omega

/-- A positive value is the whole length. -/
theorem transferAll_pos {len : UInt32} {calls : List Call} {t : Transfer}
    (h : transferAll len calls = some t) (hpos : 0 < t.ret) : t.ret = len.toNat := by
  obtain ⟨hmoved, ⟨-, hsum, hret, -⟩ | ⟨-, last, -, -, hlast, -, hret, -⟩⟩ := transferLoop_stops h
  · omega
  · omega

theorem transfer_exact (len : UInt32) (buffer : List UInt8) (hbuf : buffer.length = len.toNat) :
    (∀ outcomes : Stream' Call, Answers len.toNat outcomes → ∃ n t,
      sendAll len (outcomes.take n) = some t ∧
        Exact len.toNat (outcomes.take n) t (sentChunks buffer 0 (outcomes.take n)).flatten
          buffer) ∧
    (∀ arrivals : Stream' Arrival, Answers len.toNat (arrivals.map Arrival.call) → ∃ n t,
      recvAll len (arrivals.take n) = some t ∧
        Exact len.toNat ((arrivals.take n).map Arrival.call) t (received (arrivals.take n))
          (stored buffer 0 (arrivals.take n))) ∧
    (∀ calls t, sendAll len calls = some t → 0 < t.ret → t.ret = len.toNat) ∧
    (∀ arrivals t, recvAll len arrivals = some t → 0 < t.ret → t.ret = len.toNat) ∧
    ∀ sln calls t, totalLength sln < 2 ^ 32 →
      sendAll (UInt32.ofNat (totalLength sln)) calls = some t → 0 < t.ret →
        ¬ t.ret < totalLength sln := by
  refine ⟨fun outcomes h => ?_, fun arrivals h => ?_, fun calls t h hpos => transferAll_pos h hpos,
    fun arrivals t h hpos => transferAll_pos h hpos, fun sln calls t hlen h hpos => ?_⟩
  · obtain ⟨n, t, ht⟩ := transferLoop_total 0 h
    obtain ⟨hmoved, hend⟩ := transferLoop_stops ht
    have hle : movedBy (outcomes.take n) ≤ buffer.length := by
      rcases hend with ⟨-, hsum, -⟩ | ⟨-, -, -, -, -, hlt, -⟩ <;> omega
    refine ⟨n, t, ht, ?_⟩
    rw [sentChunks_flatten, List.drop_zero]
    exact transferAll_exact ht hbuf (List.take_prefix _ _) (List.length_take_of_le hle)
  · obtain ⟨n, t, ht⟩ := transferLoop_total 0 h
    rw [← Stream'.map_take] at ht
    obtain ⟨hmoved, hend⟩ := transferLoop_stops ht
    have hlength : (received (arrivals.take n)).length =
        movedBy ((arrivals.take n).map Arrival.call) := received_length _
    have hle : (received (arrivals.take n)).length ≤ buffer.length := by
      rcases hend with ⟨-, hsum, -⟩ | ⟨-, -, -, -, -, hlt, -⟩ <;> omega
    refine ⟨n, t, ht, ?_⟩
    rw [stored_eq _ _ _ (by omega), List.take_zero, List.nil_append, Nat.zero_add]
    refine transferAll_exact ht ?_ (List.prefix_append _ _) hlength
    rw [List.length_append, List.length_drop]
    omega
  · have hret := transferAll_pos h hpos
    rw [UInt32.toNat_ofNat', Nat.mod_eq_of_lt hlen] at hret
    omega

/-- One byte at a time. -/
theorem transfer_exact_bytewise :
    ∃ n t, sendAll 3 ((Stream'.const (Call.moved 1)).take n) = some t ∧
      Exact 3 ((Stream'.const (Call.moved 1)).take n) t
        (sentChunks [7, 8, 9] 0 ((Stream'.const (Call.moved 1)).take n)).flatten [7, 8, 9] :=
  (transfer_exact 3 [7, 8, 9] rfl).1 _ fun _ _ hlt => ⟨Nat.one_pos, Nat.sub_pos_of_lt hlt⟩

end JudgeServer
