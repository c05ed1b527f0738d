import JudgeServer.Client.Process

/-! `last_send_delay` over the calls of `process_solutions` on one client. The retry loop
only ever adds to it, so a call gives up at the third timeout of the client's life, or at
the first one after that, however the timeouts are spread over the calls. -/

namespace JudgeServer

/-- The call has timed out. -/
def Call.timedOut : Call → Bool
  | .failed e => e.isTimeout
  | _ => false

/-- The rounds of a retry loop that add to `last_send_delay`. -/
def delays (len : UInt32) : Errno → List (List Call) → ℕ
  | _, [] => 0
  | errno, calls :: rounds =>
    match sendAll len calls with
    | none => 0
    | some t => (if t.ret ≤ 0 ∧ (t.errno.getD errno).isTimeout then 1 else 0) +
        delays len (t.errno.getD errno) rounds

/-- A call of `process_solutions`, with the outcomes of its `send` calls. -/
structure ProcessCall where
  client : Client
  errno : Errno
  rounds : List (List Call)
  ret : ℤ
  after : Client
  errno' : Errno
  returns : processSolutions client errno rounds = some (ret, after, errno')

namespace ProcessCall

/-- The send timeouts during the call. -/
def timeouts (call : ProcessCall) : ℕ := call.rounds.flatten.countP Call.timedOut

def delays (call : ProcessCall) : ℕ :=
  match call.client.solutionsQueue with
  | [] => 0
  | sln :: _ => JudgeServer.delays (UInt32.ofNat (totalLength sln)) call.errno call.rounds

/-- The call gives the client up only if it has itself timed out often enough. -/
def GivesUpFairly (call : ProcessCall) : Prop :=
  call.ret = CLI_SENDTIMEOUT → (SEND_MAX_TIMEOUT / SEND_TIMEOUT_SEC).toNat ≤ call.timeouts

end ProcessCall

/-- The calls follow one another on a client with this `last_send_delay`, which nothing
between them changes. -/
def Consecutive : UInt16 → List ProcessCall → Prop
  | _, [] => True
  | delay, call :: calls =>
    call.client.lastSendDelay = delay ∧ Consecutive call.after.lastSendDelay calls

def totalDelays (calls : List ProcessCall) : ℕ := (calls.map ProcessCall.delays).sum

/-- At most two rounds of all the calls add to the delay, or all that do are in one call
and are timeouts of `send`. -/
def DelaysTogether (calls : List ProcessCall) : Prop :=
  totalDelays calls ≤ 2 ∨
    ∃ call ∈ calls, totalDelays calls = call.delays ∧ call.timeouts = call.delays

theorem countP_timedOut_of_pos {calls : List Call} (h : ∀ c ∈ calls, 0 < c.ret) :
    calls.countP Call.timedOut = 0 := by
  rw [List.countP_eq_zero]
  intro c hc
  have hpos := h c hc
  cases c with
  | failed e => simp [Call.ret] at hpos
  | _ => simp [Call.timedOut]

/-- At most the last `send` of a round times out, and then the round adds to the delay. -/
theorem round_timeouts_le {len : UInt32} {calls : List Call} {t : Transfer} (errno : Errno)
    (h : sendAll len calls = some t) :
    calls.countP Call.timedOut ≤ if t.ret ≤ 0 ∧ (t.errno.getD errno).isTimeout then 1 else 0 := by
  obtain ⟨-, ⟨hall, -⟩ | ⟨before, last, rfl, hall, hlast, -, hret, herrno⟩⟩ := transferLoop_stops h
  · rw [countP_timedOut_of_pos hall]
    exact Nat.zero_le _
  · rw [List.countP_append, countP_timedOut_of_pos hall, Nat.zero_add, List.countP_singleton]
    by_cases htime : last.timedOut = true
    · have hadds : t.ret ≤ 0 ∧ (t.errno.getD errno).isTimeout = true := by
        cases last with
        | failed e => exact ⟨hret ▸ hlast, by rw [herrno]; exact htime⟩
        | _ => cases htime
      rw [if_pos htime, if_pos hadds]
    · rw [if_neg htime]
      exact Nat.zero_le _

theorem timeouts_le_delays {sln : Solution} {c : Client} {e : Errno} {rounds : List (List Call)}
    {r : ℤ × Client × Errno} (h : sendLoop sln c e rounds = some r) :
    rounds.flatten.countP Call.timedOut ≤
      delays (UInt32.ofNat (totalLength sln)) e rounds := by
  induction rounds generalizing c e with
  | nil => cases h
  | cons calls rounds ih =>
    obtain ⟨t, next, hsend, -, -, hend⟩ := sendLoop_cons h
    have hround := round_timeouts_le e hsend
    simp only [List.flatten_cons, List.countP_append, delays, hsend]
    rcases hend with ⟨-, -, rfl, -⟩ | ⟨-, hrest⟩
    · simpa using Nat.le_add_right_of_le hround
    · exact Nat.add_le_add hround (ih hrest)

/-- One round adds 6 to the delay or leaves it, and gives up when it reaches 18. -/
theorem round_delay {c : Client} {errno : Errno} {total : ℕ} {t : Transfer}
    {next : Client × Option ℤ} (h : RoundRule c errno total t next)
    (hd : c.lastSendDelay.toNat ≤ 18) {b : ℕ}
    (hb : b = if t.ret ≤ 0 ∧ errno.isTimeout then 1 else 0) :
    next.1.lastSendDelay.toNat = c.lastSendDelay.toNat + 6 * b ∧
      (next.2 = some CLI_SENDTIMEOUT ↔ b = 1 ∧ 12 ≤ c.lastSendDelay.toNat) ∧
      (next.2 = none → b = 1 → c.lastSendDelay.toNat < 12) := by
  have hadd : (c.lastSendDelay + SEND_TIMEOUT_SEC).toNat = c.lastSendDelay.toNat + 6 := by
    have hsix : SEND_TIMEOUT_SEC.toNat = 6 := rfl
    rw [UInt16.toNat_add, hsix, Nat.mod_eq_of_lt (by omega)]
  have hmax : SEND_MAX_TIMEOUT.toNat = 18 := rfl
  cases h with
  | hang hret htime hge =>
    rw [if_pos ⟨hret, htime⟩] at hb
    have hge : 18 ≤ c.lastSendDelay.toNat + 6 := by
      rw [← hadd, ← hmax]
      exact UInt16.le_iff_toNat_le.1 hge
    refine ⟨by rw [hb]; exact hadd, iff_of_true rfl ⟨hb, by omega⟩, fun hnone => ?_⟩
    cases hnone
  | delay hret htime hlt =>
    rw [if_pos ⟨hret, htime⟩] at hb
    have hlt : c.lastSendDelay.toNat + 6 < 18 := by
      rw [← hadd, ← hmax]
      exact UInt16.lt_iff_toNat_lt.1 hlt
    refine ⟨by rw [hb]; exact hadd, iff_of_false (by simp) (by omega), fun _ _ => by omega⟩
  | reset hret herrno =>
    subst herrno
    simp [Errno.isTimeout] at hb
    subst hb
    simp [CLI_CONNERROR, CLI_SENDTIMEOUT]
  | again hret htime herrno =>
    simp [htime] at hb
    subst hb
    simp
  | short hret | whole hret =>
    rw [if_neg (by omega)] at hb
    subst hb
    simp [CLI_CONNERROR, CLI_SENDTIMEOUT]

/-- The delay grows with the rounds that add to it, up to the one that reaches the limit. -/
theorem sendLoop_delay {sln : Solution} {c c' : Client} {e e' : Errno} {rounds : List (List Call)}
    {ret : ℤ} (h : sendLoop sln c e rounds = some (ret, c', e'))
    (hd : c.lastSendDelay.toNat ≤ 18) {k : ℕ}
    (hk : delays (UInt32.ofNat (totalLength sln)) e rounds = k) :
    c'.lastSendDelay.toNat = c.lastSendDelay.toNat + 6 * k ∧
      (ret = CLI_SENDTIMEOUT ↔ 1 ≤ k ∧ 18 ≤ c.lastSendDelay.toNat + 6 * k) ∧
      (2 ≤ k → c.lastSendDelay.toNat + 6 * k < 24) := by
  induction rounds generalizing c e k with
  | nil => cases h
  | cons calls rounds ih =>
    obtain ⟨t, next, hsend, hrule, -, hend⟩ := sendLoop_cons h
    simp only [delays, hsend] at hk
    set b := if t.ret ≤ 0 ∧ (t.errno.getD e).isTimeout then 1 else 0 with hb
    have hle : b ≤ 1 := by
      rw [hb]
      split_ifs <;> omega
    obtain ⟨hdelay, hgives, hstays⟩ := round_delay hrule hd hb
    rcases hend with ⟨status, hstatus, rfl, hr⟩ | ⟨hnone, hrest⟩
    · obtain ⟨rfl, rfl, rfl⟩ : ret = status ∧ c' = next.1 ∧ e' = t.errno.getD e := by
        simpa using hr
      rw [delays, Nat.add_zero] at hk
      rw [hstatus, Option.some.injEq] at hgives
      rw [hgives]
      omega
    · obtain ⟨hdelay', hgives', hlast⟩ :=
        ih hrest (by have := hstays hnone; omega) rfl
      have hlow := hstays hnone
      rw [hgives']
      omega

namespace ProcessCall

theorem timeouts_le (call : ProcessCall) : call.timeouts ≤ call.delays := by
  unfold timeouts delays
  rcases processSolutions_cases call.returns with ⟨-, hnil, -⟩ | ⟨sln, rest, hqueue, h⟩
  · simp [hnil]
  · rw [hqueue]
    exact timeouts_le_delays h

/-- A call adds 6 for each delay, and gives up at 18 or the first delay after that. -/
theorem delay (call : ProcessCall) (hd : call.client.lastSendDelay.toNat ≤ 18) :
    call.after.lastSendDelay.toNat = call.client.lastSendDelay.toNat + 6 * call.delays ∧
      (call.ret = CLI_SENDTIMEOUT ↔
        1 ≤ call.delays ∧ 18 ≤ call.client.lastSendDelay.toNat + 6 * call.delays) ∧
      (2 ≤ call.delays → call.client.lastSendDelay.toNat + 6 * call.delays < 24) := by
  unfold delays
  rcases processSolutions_cases call.returns with ⟨hempty, -, hr⟩ | ⟨sln, rest, hqueue, h⟩
  · obtain ⟨hret, hafter, -⟩ : call.ret = 0 ∧ call.after = call.client ∧ _ := by simpa using hr
    simp [hempty, hret, hafter, CLI_SENDTIMEOUT]
  · rw [hqueue]
    exact sendLoop_delay h hd rfl

end ProcessCall

theorem totalDelays_cons (call : ProcessCall) (calls : List ProcessCall) :
    totalDelays (call :: calls) = call.delays + totalDelays calls := by
  simp [totalDelays]

theorem delays_le_total {call : ProcessCall} {calls : List ProcessCall} (h : call ∈ calls) :
    call.delays ≤ totalDelays calls :=
  List.single_le_sum (by simp) _ (List.mem_map.2 ⟨call, h, rfl⟩)

/-- What the calls on a client are to be like after `g` delays. -/
def FairFrom (g : ℕ) (calls : List ProcessCall) : Prop :=
  g + totalDelays calls ≤ 2 ∨ g = 3 ∧ totalDelays calls = 0 ∨
    g = 0 ∧ ∃ call ∈ calls, totalDelays calls = call.delays ∧ call.timeouts = call.delays

/-- The first call that adds to the delay decides. -/
theorem fairFrom_cons {g : ℕ} {call : ProcessCall} {calls : List ProcessCall}
    (hpos : 1 ≤ call.delays) : FairFrom g (call :: calls) ↔
      g + call.delays + totalDelays calls ≤ 2 ∨
        g = 0 ∧ totalDelays calls = 0 ∧ call.timeouts = call.delays := by
  unfold FairFrom
  rw [totalDelays_cons]
  constructor
  · rintro (h | ⟨-, h⟩ | ⟨rfl, other, hmem, htotal, htimes⟩)
    · exact Or.inl (by omega)
    · omega
    · rcases List.mem_cons.1 hmem with rfl | hmem
      · exact Or.inr ⟨rfl, by omega, htimes⟩
      · have hle := delays_le_total hmem
        omega
  · rintro (h | ⟨rfl, hzero, htimes⟩)
    · exact Or.inl (by omega)
    · exact Or.inr (Or.inr ⟨rfl, call, List.mem_cons_self, by omega, htimes⟩)

theorem fairFrom_cons_zero {g : ℕ} {call : ProcessCall} {calls : List ProcessCall}
    (hzero : call.delays = 0) : FairFrom g (call :: calls) ↔ FairFrom g calls := by
  unfold FairFrom
  rw [totalDelays_cons, hzero, Nat.zero_add]
  constructor
  · rintro (h | h | ⟨hg, other, hmem, htotal, htimes⟩)
    · exact Or.inl h
    · exact Or.inr (Or.inl h)
    · rcases List.mem_cons.1 hmem with rfl | hmem
      · exact Or.inl (by omega)
      · exact Or.inr (Or.inr ⟨hg, other, hmem, htotal, htimes⟩)
  · rintro (h | h | ⟨hg, other, hmem, hother⟩)
    · exact Or.inl h
    · exact Or.inr (Or.inl h)
    · exact Or.inr (Or.inr ⟨hg, other, List.mem_cons_of_mem _ hmem, hother⟩)

/-- The induction over the calls, from a client with `g` delays so far. -/
theorem fairFrom_iff {g : ℕ} (hg : g ≤ 3) {delay : UInt16} (hdelay : delay.toNat = 6 * g)
    {calls : List ProcessCall} (h : Consecutive delay calls) :
    (∀ call ∈ calls, call.GivesUpFairly) ↔ FairFrom g calls := by
  induction calls generalizing g delay with
  | nil =>
    have hzero : totalDelays [] = 0 := rfl
    refine iff_of_true (by simp) ?_
    unfold FairFrom
    rw [hzero]
    omega
  | cons call calls ih =>
    obtain ⟨rfl, hrest⟩ := h
    obtain ⟨hafter, hgives, hlast⟩ := call.delay (by omega)
    have htimes := call.timeouts_le
    have hthree : (SEND_MAX_TIMEOUT / SEND_TIMEOUT_SEC).toNat = 3 := rfl
    have hfair : call.GivesUpFairly ↔
        (1 ≤ call.delays ∧ 18 ≤ 6 * g + 6 * call.delays → 3 ≤ call.timeouts) := by
      rw [ProcessCall.GivesUpFairly, hgives, hthree, hdelay]
    rw [List.forall_mem_cons, hfair]
    rcases Nat.eq_zero_or_pos call.delays with hzero | hpos
    · rw [ih hg (by omega) hrest, fairFrom_cons_zero hzero, hzero]
      simp
    · rw [fairFrom_cons hpos]
      by_cases hmore : g + call.delays ≤ 3
      · rw [ih hmore (by omega) hrest]
        unfold FairFrom
        constructor
        · rintro ⟨hthree, h | ⟨hg3, hrest0⟩ | ⟨hg0, -⟩⟩
          · exact Or.inl h
          · have := hthree ⟨hpos, by omega⟩
            exact Or.inr ⟨by omega, hrest0, by omega⟩
          · omega
        · rintro (h | ⟨rfl, hrest0, htimes'⟩)
          · exact ⟨fun hge => by omega, Or.inl h⟩
          · exact ⟨fun hge => by omega, by omega⟩
      · refine iff_of_false ?_ ?_
        · rintro ⟨hthree, -⟩
          have := hthree ⟨hpos, by omega⟩
          omega
        · omega

/-- Over the calls on a client from its creation on, a call gives up only after three
timeouts of its own exactly when the delays do not add up over several calls. -/
theorem gives_up_fairly_iff (id : UInt32) (calls : List ProcessCall)
    (h : Consecutive (clientCreate id).lastSendDelay calls) :
    (∀ call ∈ calls, call.GivesUpFairly) ↔ DelaysTogether calls := by
  rw [fairFrom_iff (Nat.zero_le 3) rfl h]
  unfold FairFrom DelaysTogether
  simp

/-- Two timeouts, then the packet is sent. -/
def slowCall : ProcessCall where
  client := queuedClient
  errno := .other 0
  rounds := [[.failed .EAGAIN], [.failed .EAGAIN], [.moved 17]]
  ret := 0
  after := _
  errno' := .EAGAIN
  returns := rfl

/-- The next solution of the client: one timeout. -/
def nextCall : ProcessCall where
  client := slowCall.after.push (sampleSolution 1 2)
  errno := .other 0
  rounds := [[.failed .EAGAIN]]
  ret := CLI_SENDTIMEOUT
  after := _
  errno' := .EAGAIN
  returns := rfl

/-- One timeout, then the packet is sent. -/
def onceCall : ProcessCall where
  client := queuedClient
  errno := .other 0
  rounds := [[.failed .EAGAIN], [.moved 17]]
  ret := 0
  after := _
  errno' := .EAGAIN
  returns := rfl

/-- So it is with the next solution. -/
def onceMoreCall : ProcessCall where
  client := onceCall.after.push (sampleSolution 1 2)
  errno := .other 0
  rounds := [[.failed .EWOULDBLOCK], [.moved 5, .moved 12]]
  ret := 0
  after := _
  errno' := .EWOULDBLOCK
  returns := rfl

theorem gives_up_fairly_slow :
    (∀ call ∈ [onceCall, onceMoreCall], call.GivesUpFairly) ↔ DelaysTogether [onceCall, onceMoreCall] :=
  gives_up_fairly_iff 1 [onceCall, onceMoreCall] ⟨rfl, rfl, trivial⟩

/-- The client is given up after the first timeout of the call. -/
theorem gives_up_early :
    Consecutive (clientCreate 1).lastSendDelay [slowCall, nextCall] ∧
      nextCall.ret = CLI_SENDTIMEOUT ∧ nextCall.timeouts = 1 ∧
      ¬ ∀ call ∈ [slowCall, nextCall], call.GivesUpFairly := by
  refine ⟨⟨rfl, rfl, trivial⟩, rfl, rfl, fun h => ?_⟩
  have hthree := h nextCall (by simp) rfl
  revert hthree
  decide

end JudgeServer
