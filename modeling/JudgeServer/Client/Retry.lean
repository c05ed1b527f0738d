import JudgeServer.Client.SendDelay

/-! When the retry loop of `process_solutions` ends. It leaves on success, on ECONNRESET
and on the delay limit only, so it goes on forever exactly when `send` fails over and over
with another error and none of the three ever comes. -/

namespace JudgeServer

/-- The bytes accepted since the last failure. -/
def progress (outcomes : Stream' Call) : ℕ → ℕ
  | 0 => 0
  | i + 1 =>
    match outcomes.get i with
    | .moved n => progress outcomes i + n
    | _ => 0

/-- Each `send` accepts some of what is left of the `len` bytes, or fails. -/
def SendsOrFails (len : ℕ) (outcomes : Stream' Call) : Prop :=
  ∀ i, progress outcomes i < len →
    (outcomes.get i).Fits (len - progress outcomes i) ∧ outcomes.get i ≠ .closed

def timeoutsBy (outcomes : Stream' Call) (i : ℕ) : ℕ := (outcomes.take i).countP Call.timedOut

/-- `last_send_delay` after `k` more timeouts. -/
def delayAfter (delay : UInt16) (k : ℕ) : UInt16 := delay + UInt16.ofNat (6 * k)

/-- The sends never accept the whole packet, never find the connection reset and do not
time out up to the limit, but fail again and again with another `errno`. -/
structure FailsForever (delay : UInt16) (len : ℕ) (outcomes : Stream' Call) : Prop where
  never : ∀ i, progress outcomes i < len
  noReset : ∀ i, outcomes.get i ≠ .failed .ECONNRESET
  few : ∀ i, 0 < timeoutsBy outcomes i → delayAfter delay (timeoutsBy outcomes i) < SEND_MAX_TIMEOUT
  again : ∀ n, ∃ i e, n ≤ i ∧ outcomes.get i = .failed e ∧ e.isTimeout = false

/-- The length that `send_all` is called with. -/
def sendLength (sln : Solution) : UInt32 := UInt32.ofNat (totalLength sln)

/-- The retry loop of the first queued solution is stuck: its sends fail forever, or it has
nothing to send and finds neither a timeout nor a reset in `errno`. -/
def RetriesForever (c : Client) (errno : Errno) (outcomes : Stream' Call) : Prop :=
  ∃ sln, c.solutionsQueue.head? = some sln ∧
    (sendLength sln = 0 ∧ errno.isTimeout = false ∧ errno ≠ .ECONNRESET ∨
      sendLength sln ≠ 0 ∧ FailsForever c.lastSendDelay (sendLength sln).toNat outcomes)

/-- The last round has accepted the whole packet and the value is 0, or the value tells
what went wrong. -/
def ValueTells (sln : Solution) (rounds : List (List Call)) (ret : ℤ) : Prop :=
  if movedBy (rounds.getLast?.getD []) = totalLength sln then ret = 0
  else ret = CLI_SENDTIMEOUT ∨ ret = CLI_CONNERROR

/-- `process_solutions` returns after finitely many sends, with the value that tells how. -/
def Returns (c : Client) (errno : Errno) (outcomes : Stream' Call) : Prop :=
  ∃ n rounds ret c' errno', rounds.flatten = outcomes.take n ∧
    processSolutions c errno rounds = some (ret, c', errno') ∧
    ∀ sln, c.solutionsQueue.head? = some sln → ValueTells sln rounds ret

@[simp] theorem delayAfter_zero (delay : UInt16) : delayAfter delay 0 = delay := by
  simp [delayAfter]

theorem delayAfter_succ (delay : UInt16) (k : ℕ) :
    delayAfter delay (k + 1) = delayAfter delay k + SEND_TIMEOUT_SEC := by
  have hsix : SEND_TIMEOUT_SEC = UInt16.ofNat 6 := rfl
  rw [delayAfter, delayAfter, hsix, Nat.mul_succ, UInt16.ofNat_add, UInt16.add_assoc]

/-- The fourth timeout in a row below the limit does not exist. -/
theorem delayAfter_limit (delay : UInt16) (k : ℕ) :
    ¬ ∀ j, j < 4 → delayAfter delay (k + j) < SEND_MAX_TIMEOUT := by
  intro h
  have hsum : ∀ j, j < 4 → (delayAfter delay (k + j)).toNat = (delayAfter delay k).toNat + 6 * j := by
    intro j hj
    induction j with
    | zero => rfl
    | succ j ih =>
      have hlt := UInt16.lt_iff_toNat_lt.1 (h j (by omega))
      have hmax : SEND_MAX_TIMEOUT.toNat = 18 := rfl
      have hsix : SEND_TIMEOUT_SEC.toNat = 6 := rfl
      rw [← Nat.add_assoc, delayAfter_succ, UInt16.toNat_add, hsix, ih (by omega), Nat.mul_succ,
        Nat.add_assoc, Nat.mod_eq_of_lt]
      omega
  have hlast := UInt16.lt_iff_toNat_lt.1 (h 3 (by omega))
  rw [hsum 3 (by omega)] at hlast
  have hmax : SEND_MAX_TIMEOUT.toNat = 18 := rfl
  omega

theorem timeoutsBy_add (outcomes : Stream' Call) (p n : ℕ) :
    timeoutsBy outcomes (p + n) =
      timeoutsBy outcomes p + ((outcomes.drop p).take n).countP Call.timedOut := by
  rw [timeoutsBy, Stream'.take_add, List.countP_append]
  rfl

/-- Between two failures the progress is what the calls have moved. -/
theorem progress_moved {outcomes : Stream' Call} {p : ℕ} (hp : progress outcomes p = 0) (n : ℕ)
    (hpos : ∀ c ∈ (outcomes.drop p).take n, 0 < c.ret) :
    progress outcomes (p + n) = movedBy ((outcomes.drop p).take n) := by
  induction n with
  | zero => simpa using hp
  | succ n ih =>
    rw [Stream'.take_succ'] at hpos ⊢
    have hlast := hpos ((outcomes.drop p).get n) (by simp)
    have hget : (outcomes.drop p).get n = outcomes.get (p + n) := Stream'.get_drop ..
    rw [hget] at hlast ⊢
    rw [movedBy_append, ← ih fun c hc => hpos c (List.mem_append_left _ hc), ← Nat.add_assoc, progress]
    cases hcall : outcomes.get (p + n) with
    | moved k => simp [Call.size]
    | closed | failed => simp [hcall, Call.ret] at hlast

theorem answers_drop {len : ℕ} {outcomes : Stream' Call} (h : SendsOrFails len outcomes) {p : ℕ}
    (hp : progress outcomes p = 0) : Answers len (outcomes.drop p) := by
  intro i hpos hlt
  rw [← progress_moved hp i hpos] at hlt ⊢
  rw [Stream'.get_drop]
  exact (h (p + i) hlt).1

/-- What a return of the retry loop says. -/
theorem sendLoop_value {sln : Solution} {c : Client} {e : Errno} {rounds : List (List Call)}
    {ret : ℤ} {c' : Client} {e' : Errno} (h : sendLoop sln c e rounds = some (ret, c', e')) :
    ValueTells sln rounds ret := by
  induction rounds generalizing c e with
  | nil => cases h
  | cons calls rounds ih =>
    obtain ⟨t, next, hsend, hrule, -, hend⟩ := sendLoop_cons h
    rcases hend with ⟨status, hstatus, rfl, hr⟩ | ⟨-, hrest⟩
    · obtain ⟨rfl, -, -⟩ : ret = status ∧ c' = next.1 ∧ e' = t.errno.getD e := by simpa using hr
      have hlen : (UInt32.ofNat (totalLength sln)).toNat ≤ totalLength sln := by
        rw [UInt32.toNat_ofNat']
        exact Nat.mod_le _ _
      have hpos : 0 < totalLength sln := by
        unfold totalLength
        omega
      have hstops := (transferLoop_stops hsend).2
      have hwhole : movedBy calls = totalLength sln ↔ totalLength sln ≤ t.ret := by
        rcases hstops with ⟨-, hsum, hret, -⟩ | ⟨before, last, -, -, hlast, hlt, hret, -⟩
        · have hmoved := (transferLoop_stops hsend).1
          omega
        · omega
      unfold ValueTells
      simp only [List.getLast?_singleton, Option.getD_some, hwhole]
      cases hrule with
      | hang hret | reset hret =>
        obtain rfl := Option.some.inj hstatus
        rw [if_neg (by omega)]
        simp
      | short hret hshort =>
        obtain rfl := Option.some.inj hstatus
        rw [if_neg (by omega)]
        simp
      | whole hret hle =>
        obtain rfl := Option.some.inj hstatus
        rw [if_pos hle]
      | delay | again => cases hstatus
    · have hrounds := ih hrest
      unfold ValueTells at hrounds ⊢
      cases rounds with
      | nil => cases hrest
      | cons calls' rounds => rwa [List.getLast?_cons_cons]

theorem movedBy_take_le {outcomes : Stream' Call} {j n : ℕ} (h : j ≤ n) :
    movedBy (outcomes.take j) ≤ movedBy (outcomes.take n) := by
  obtain ⟨k, rfl⟩ := Nat.exists_eq_add_of_le h
  rw [Stream'.take_add, movedBy_append]
  exact Nat.le_add_right _ _

/-- A list of outcomes that starts with some calls. -/
theorem take_split {outcomes : Stream' Call} {calls rest : List Call} {n : ℕ}
    (h : calls ++ rest = outcomes.take n) :
    ∃ k, n = calls.length + k ∧ calls = outcomes.take calls.length ∧
      rest = (outcomes.drop calls.length).take k := by
  have hlen : n = calls.length + rest.length := by
    rw [← List.length_append, h, Stream'.length_take]
  refine ⟨rest.length, hlen, ?_⟩
  rw [hlen, Stream'.take_add] at h
  exact List.append_inj h (by rw [Stream'.length_take])

theorem forall_take_of_le {outcomes : Stream' Call} {p j m : ℕ} (hj : j ≤ m)
    (h : ∀ c ∈ (outcomes.drop p).take m, 0 < c.ret) : ∀ c ∈ (outcomes.drop p).take j, 0 < c.ret := by
  intro c hc
  obtain ⟨i, rfl⟩ := Nat.exists_eq_add_of_le hj
  rw [Stream'.take_add] at h
  exact h c (List.mem_append_left _ hc)

/-- A round that starts at position `p` of the outcomes: it sends the whole length, or it
ends at its first failure. -/
theorem round_at {len : UInt32} {outcomes : Stream' Call} (hs : SendsOrFails len.toNat outcomes)
    (hlen : len ≠ 0) {p n : ℕ} (hp : progress outcomes p = 0) {t : Transfer}
    (h : sendAll len ((outcomes.drop p).take n) = some t) :
    0 < t.ret ∧ progress outcomes (p + n) = len.toNat ∨
      ∃ m e, n = m + 1 ∧ outcomes.get (p + m) = .failed e ∧ t.ret ≤ 0 ∧ t.errno = some e ∧
        (∀ j, j ≤ m → progress outcomes (p + j) < len.toNat) ∧
        ∀ c ∈ (outcomes.drop p).take m, 0 < c.ret := by
  obtain ⟨hmoved, ⟨hall, hsum, hret, -⟩ | ⟨before, last, hcalls, hall, hlast, hlt, hret, herrno⟩⟩ :=
    transferLoop_stops h
  · left
    refine ⟨?_, by rw [progress_moved hp n hall, hsum]⟩
    have hpos : 0 < len.toNat := by
      rw [Nat.pos_iff_ne_zero]
      exact fun hz => hlen (UInt32.toNat_inj.1 hz)
    omega
  · right
    obtain ⟨k, hn, hbefore, hrest⟩ := take_split hcalls.symm
    have hk : k = 1 := by
      have hlength := congrArg List.length hrest
      simpa using hlength.symm
    subst hk
    have hget : last = outcomes.get (p + before.length) := by
      rw [Stream'.take_succ, Stream'.take_zero, List.cons.injEq] at hrest
      rw [hrest.1, Stream'.head_drop, Stream'.get_drop]
    have hsize : movedBy before < len.toNat := by
      rw [hcalls, movedBy_append] at hlt
      omega
    have hbelow : ∀ j, j ≤ before.length → progress outcomes (p + j) < len.toNat := by
      intro j hj
      rw [hbefore] at hall
      rw [progress_moved hp j (forall_take_of_le hj hall)]
      refine lt_of_le_of_lt (movedBy_take_le hj) ?_
      rwa [← hbefore]
    have hopen := (hs _ (hbelow before.length le_rfl)).2
    rw [← hget] at hopen
    refine ⟨before.length, ?_⟩
    rw [← hget, ← hbefore]
    cases last with
    | moved k =>
      have hk : k = 0 := by simpa [Call.ret] using hlast
      subst hk
      have hfits := (hs _ (hbelow before.length le_rfl)).1
      rw [← hget] at hfits
      exact absurd hfits.1 (Nat.lt_irrefl 0)
    | closed => exact absurd rfl hopen
    | failed e => exact ⟨e, hn, rfl, hret ▸ hlast, herrno, hbelow, hall⟩

/-- What the failing `send` of a round does to the count of the timeouts. -/
theorem timeoutsBy_round {outcomes : Stream' Call} {p m : ℕ} {e : Errno}
    (hall : ∀ c ∈ (outcomes.drop p).take m, 0 < c.ret) (hfail : outcomes.get (p + m) = .failed e) :
    timeoutsBy outcomes (p + (m + 1)) =
      timeoutsBy outcomes p + if e.isTimeout then 1 else 0 := by
  rw [timeoutsBy_add, Stream'.take_succ', List.countP_append, countP_timedOut_of_pos hall,
    Stream'.get_drop, hfail, List.countP_singleton, Nat.zero_add]
  rfl

/-- Before that `send` the round sees no timeout, nor any other failure. -/
theorem timeoutsBy_before {outcomes : Stream' Call} {p j m : ℕ} (hj : j ≤ m)
    (hall : ∀ c ∈ (outcomes.drop p).take m, 0 < c.ret) :
    timeoutsBy outcomes (p + j) = timeoutsBy outcomes p := by
  rw [timeoutsBy_add, countP_timedOut_of_pos (forall_take_of_le hj hall), Nat.add_zero]

theorem not_failed_before {outcomes : Stream' Call} {p j m : ℕ} (hj : j < m)
    (hall : ∀ c ∈ (outcomes.drop p).take m, 0 < c.ret) (e : Errno) :
    outcomes.get (p + j) ≠ .failed e := by
  intro hfail
  have hmem : outcomes.get (p + j) ∈ (outcomes.drop p).take m := by
    rw [List.mem_iff_getElem?]
    exact ⟨j, by rw [Stream'.getElem?_take hj, Stream'.get_drop]⟩
  have hret := hall _ hmem
  rw [hfail] at hret
  cases hret

/-- Sends that fail forever never let the loop return. -/
theorem sendLoop_failing {sln : Solution} {outcomes : Stream' Call} {delay : UInt16}
    (hs : SendsOrFails (sendLength sln).toNat outcomes) (hlen : sendLength sln ≠ 0)
    (hf : FailsForever delay (sendLength sln).toNat outcomes) {rounds : List (List Call)}
    {c : Client} {e : Errno} {p n : ℕ} (hp : progress outcomes p = 0)
    (hdelay : c.lastSendDelay = delayAfter delay (timeoutsBy outcomes p))
    (hflat : rounds.flatten = (outcomes.drop p).take n) : sendLoop sln c e rounds = none := by
  induction rounds generalizing c e p n with
  | nil => rfl
  | cons calls rounds ih =>
    by_contra hsome
    obtain ⟨r, hr⟩ := Option.ne_none_iff_exists'.1 hsome
    obtain ⟨t, next, hsend, hrule, -, hend⟩ := sendLoop_cons hr
    obtain ⟨k, hn, hcalls, hrest⟩ := take_split hflat
    rw [hcalls] at hsend
    rcases round_at hs hlen hp hsend with ⟨-, hwhole⟩ |
      ⟨m, e', hm, hfail, hneg, herrno, -, hall⟩
    · have hlt := hf.never (p + calls.length)
      omega
    have hcount := timeoutsBy_round hall hfail
    have hnext : progress outcomes (p + (m + 1)) = 0 := by
      rw [← Nat.add_assoc, progress, hfail]
    rw [herrno, Option.getD_some] at hrule hend
    rw [hm, Stream'.drop_drop] at hrest
    cases hrule with
    | hang _ htime hmax =>
      rw [htime, if_pos rfl] at hcount
      have hfew := hf.few (p + (m + 1)) (by omega)
      rw [hcount, delayAfter_succ, ← hdelay] at hfew
      exact absurd hmax (UInt16.not_le.2 hfew)
    | delay _ htime =>
      rw [htime, if_pos rfl] at hcount
      have hloop : sendLoop sln { c with lastSendDelay := c.lastSendDelay + SEND_TIMEOUT_SEC } e'
          rounds = some r := by simpa using hend
      rw [ih hnext (by rw [hcount, delayAfter_succ, ← hdelay]) hrest] at hloop
      cases hloop
    | reset _ herr =>
      subst herr
      exact hf.noReset _ hfail
    | again _ htime =>
      rw [htime, if_neg (by simp)] at hcount
      have hloop : sendLoop sln c e' rounds = some r := by simpa using hend
      rw [ih hnext (by rw [hcount, Nat.add_zero, hdelay]) hrest] at hloop
      cases hloop
    | short hpos | whole hpos => omega

/-- After the first `p` outcomes the loop is about to try again. -/
structure Retrying (sln : Solution) (c : Client) (e : Errno) (outcomes : Stream' Call) (p : ℕ)
    (c' : Client) (e' : Errno) : Prop where
  begun : ∃ rounds, rounds.flatten = outcomes.take p ∧
    ∀ more, sendLoop sln c e (rounds ++ more) = sendLoop sln c' e' more
  fresh : progress outcomes p = 0
  delay : c'.lastSendDelay = delayAfter c.lastSendDelay (timeoutsBy outcomes p)
  never : ∀ i, i < p → progress outcomes i < (sendLength sln).toNat
  noReset : ∀ i, i < p → outcomes.get i ≠ .failed .ECONNRESET
  few : ∀ i, i ≤ p → 0 < timeoutsBy outcomes i →
    delayAfter c.lastSendDelay (timeoutsBy outcomes i) < SEND_MAX_TIMEOUT

/-- The loop on the outcomes does not return. -/
def NeverReturns (sln : Solution) (c : Client) (e : Errno) (outcomes : Stream' Call) : Prop :=
  ∀ n rounds, rounds.flatten = outcomes.take n → sendLoop sln c e rounds = none

theorem retrying_start (sln : Solution) (c : Client) (e : Errno) (outcomes : Stream' Call) :
    Retrying sln c e outcomes 0 c e where
  begun := ⟨[], rfl, fun _ => rfl⟩
  fresh := rfl
  delay := (delayAfter_zero _).symm
  never := by simp
  noReset := by simp
  few := by simp [timeoutsBy]

/-- A loop that never returns goes on after each round. -/
theorem NeverReturns.goes_on {sln : Solution} {c c₁ : Client} {e e₁ : Errno}
    {outcomes : Stream' Call} {rounds : List (List Call)} {calls : List Call} {n : ℕ} {t : Transfer}
    (h : NeverReturns sln c e outcomes) (hflat : (rounds ++ [calls]).flatten = outcomes.take n)
    (hbegun : ∀ more, sendLoop sln c e (rounds ++ more) = sendLoop sln c₁ e₁ more)
    (hsend : sendAll (UInt32.ofNat (totalLength sln)) calls = some t) :
    ∃ c₂, RoundRule c₁ (t.errno.getD e₁) (totalLength sln) t (c₂, none) ∧
      ∀ more, sendLoop sln c e (rounds ++ [calls] ++ more) =
        sendLoop sln c₂ (t.errno.getD e₁) more := by
  have hnone := h _ _ hflat
  rw [hbegun, sendLoop, hsend] at hnone
  dsimp only at hnone
  split at hnone
  · cases hnone
  · rename_i c₂ hround
    refine ⟨c₂, hround ▸ sendRound_rule c₁ (t.errno.getD e₁) (totalLength sln) t, fun more => ?_⟩
    rw [List.append_assoc, hbegun, List.singleton_append, sendLoop, hsend]
    dsimp only
    rw [hround]

/-- A loop that never returns goes through a round that fails to the next try. -/
theorem Retrying.next {sln : Solution} {c c₁ : Client} {e e₁ : Errno} {outcomes : Stream' Call}
    {p : ℕ} (hs : SendsOrFails (sendLength sln).toNat outcomes) (hlen : sendLength sln ≠ 0)
    (hnever : NeverReturns sln c e outcomes) (h : Retrying sln c e outcomes p c₁ e₁) :
    ∃ m c₂ e₂, Retrying sln c e outcomes (p + (m + 1)) c₂ e₂ ∧
      outcomes.get (p + m) = .failed e₂ ∧
      timeoutsBy outcomes (p + (m + 1)) = timeoutsBy outcomes p + if e₂.isTimeout then 1 else 0 := by
  obtain ⟨n, t, ht⟩ := transferLoop_total 0 (answers_drop hs h.fresh)
  obtain ⟨rounds, hflat, hbegun⟩ := h.begun
  set calls := (outcomes.drop p).take n with hcalls
  have hflat' : (rounds ++ [calls]).flatten = outcomes.take (p + n) := by
    rw [List.flatten_append, hflat, Stream'.take_add, List.flatten_singleton]
  have hsend : sendAll (UInt32.ofNat (totalLength sln)) calls = some t := ht
  obtain ⟨c₂, hrule, hbegun'⟩ := hnever.goes_on hflat' hbegun hsend
  obtain ⟨hpos, -⟩ | ⟨m, e₂, rfl, hfail, -, herrno, hbelow, hall⟩ := round_at hs hlen h.fresh ht
  · cases hrule with
    | delay hneg | again hneg => omega
  rw [herrno, Option.getD_some] at hrule hbegun'
  have hcount := timeoutsBy_round hall hfail
  have hsplit : ∀ i, i < p + (m + 1) → i < p ∨ ∃ j, i = p + j ∧ j ≤ m := by
    intro i hi
    rcases Nat.lt_or_ge i p with hip | hip
    · exact Or.inl hip
    · exact Or.inr ⟨i - p, by omega, by omega⟩
  have hdelay : c₂.lastSendDelay = delayAfter c.lastSendDelay (timeoutsBy outcomes (p + (m + 1))) ∧
      e₂ ≠ .ECONNRESET ∧ (e₂.isTimeout = true → c₂.lastSendDelay < SEND_MAX_TIMEOUT) := by
    cases hrule with
    | delay _ htime hmax =>
      rw [hcount, htime, if_pos rfl, delayAfter_succ, ← h.delay]
      refine ⟨rfl, ?_, fun _ => hmax⟩
      rintro rfl
      cases htime
    | again _ htime hreset =>
      rw [hcount, htime, if_neg (by simp), Nat.add_zero, ← h.delay]
      exact ⟨rfl, hreset, fun htrue => by cases htrue⟩
  obtain ⟨hdelay, hreset, hmax⟩ := hdelay
  refine ⟨m, c₂, e₂, ⟨⟨_, hflat', hbegun'⟩, ?_, hdelay, fun i hi => ?_, fun i hi => ?_, fun i hi hcnt => ?_⟩,
    hfail, hcount⟩
  · rw [← Nat.add_assoc, progress, hfail]
  · rcases hsplit i hi with hip | ⟨j, rfl, hj⟩
    · exact h.never i hip
    · exact hbelow j hj
  · rcases hsplit i hi with hip | ⟨j, rfl, hj⟩
    · exact h.noReset i hip
    · rcases Nat.lt_or_eq_of_le hj with hj | rfl
      · exact not_failed_before hj hall _
      · rw [hfail]
        simpa using hreset
  · rcases Nat.lt_or_eq_of_le hi with hlt | rfl
    · rcases hsplit i hlt with hip | ⟨j, rfl, hj⟩
      · exact h.few i hip.le hcnt
      · rw [timeoutsBy_before hj hall] at hcnt ⊢
        exact h.few p le_rfl hcnt
    · by_cases htime : e₂.isTimeout = true
      · rw [← hdelay]
        exact hmax htime
      · rw [hcount, if_neg htime, Nat.add_zero] at hcnt ⊢
        exact h.few p le_rfl hcnt

/-- A loop that never returns sees its sends fail forever. -/
theorem failsForever_of_never {sln : Solution} {c : Client} {e : Errno} {outcomes : Stream' Call}
    (hs : SendsOrFails (sendLength sln).toNat outcomes) (hlen : sendLength sln ≠ 0)
    (hnever : NeverReturns sln c e outcomes) :
    FailsForever c.lastSendDelay (sendLength sln).toNat outcomes := by
  have hreach : ∀ n, ∃ p c' e', n ≤ p ∧ Retrying sln c e outcomes p c' e' := by
    intro n
    induction n with
    | zero => exact ⟨0, c, e, le_rfl, retrying_start ..⟩
    | succ n ih =>
      obtain ⟨p, c₁, e₁, hp, h⟩ := ih
      obtain ⟨m, c₂, e₂, h', -⟩ := h.next hs hlen hnever
      exact ⟨_, c₂, e₂, by omega, h'⟩
  refine ⟨fun i => ?_, fun i => ?_, fun i hi => ?_, fun n => ?_⟩
  · obtain ⟨p, c', e', hp, h⟩ := hreach (i + 1)
    exact h.never i hp
  · obtain ⟨p, c', e', hp, h⟩ := hreach (i + 1)
    exact h.noReset i hp
  · obtain ⟨p, c', e', hp, h⟩ := hreach i
    exact h.few i hp hi
  · -- otherwise the rounds from `n` on all time out, and the fourth of them is too much
    by_contra hno
    push Not at hno
    obtain ⟨p₀, c₀, e₀, hp₀, h₀⟩ := hreach n
    have hrounds : ∀ j, ∃ p c' e', n ≤ p ∧ Retrying sln c e outcomes p c' e' ∧
        timeoutsBy outcomes p = timeoutsBy outcomes p₀ + j := by
      intro j
      induction j with
      | zero => exact ⟨p₀, c₀, e₀, hp₀, h₀, rfl⟩
      | succ j ih =>
        obtain ⟨p, c₁, e₁, hp, h, hcount⟩ := ih
        obtain ⟨m, c₂, e₂, h', hfail, hcount'⟩ := h.next hs hlen hnever
        have htime : e₂.isTimeout = true := by
          simpa using hno (p + m) e₂ (by omega) hfail
        rw [htime, if_pos rfl, hcount] at hcount'
        exact ⟨_, c₂, e₂, by omega, h', hcount'⟩
    refine delayAfter_limit c.lastSendDelay (timeoutsBy outcomes p₀ + 1) fun j _ => ?_
    obtain ⟨p, c', e', -, h, hcount⟩ := hrounds (1 + j)
    have hfew := h.few p le_rfl (by omega)
    rwa [hcount, ← Nat.add_assoc] at hfew

/-! A packet whose length is cut to 0 by the cast to `socklen_t`. -/

theorem sendAll_zero {calls : List Call} {t : Transfer} (h : sendAll 0 calls = some t) :
    calls = [] ∧ t = ⟨0, 0, none⟩ := by
  cases calls with
  | nil => exact ⟨rfl, (Option.some.inj h).symm⟩
  | cons => cases h

/-- The rounds of an empty block time out at once, and the fourth timeout is too much. -/
theorem NeverReturns.not_timeout {sln : Solution} {c : Client} {e : Errno} {outcomes : Stream' Call}
    (hsend : sendAll (UInt32.ofNat (totalLength sln)) [] = some ⟨0, 0, none⟩)
    (h : NeverReturns sln c e outcomes) : e.isTimeout = false := by
  by_contra htime
  have hrounds : ∀ k, ∃ rounds, rounds.flatten = [] ∧
      (∀ more, sendLoop sln c e (rounds ++ more) = sendLoop sln { c with
        lastSendDelay := delayAfter c.lastSendDelay k } e more) ∧
      (0 < k → delayAfter c.lastSendDelay k < SEND_MAX_TIMEOUT) := by
    intro k
    induction k with
    | zero => exact ⟨[], rfl, fun more => by rw [delayAfter_zero]; rfl, by simp⟩
    | succ k ih =>
      obtain ⟨rounds, hflat, hbegun, -⟩ := ih
      have hflat' : (rounds ++ [[]]).flatten = outcomes.take 0 := by simp [hflat]
      obtain ⟨c₂, hrule, hbegun'⟩ := h.goes_on hflat' hbegun hsend
      rw [Option.getD_none] at hrule hbegun'
      cases hrule with
      | again _ hfalse => exact absurd hfalse htime
      | delay _ _ hmax =>
        rw [← delayAfter_succ] at hbegun' hmax
        exact ⟨rounds ++ [[]], by simp [hflat], hbegun', fun _ => hmax⟩
  refine delayAfter_limit c.lastSendDelay 1 fun j _ => ?_
  obtain ⟨-, -, -, hmax⟩ := hrounds (1 + j)
  exact hmax (by omega)

theorem neverReturns_empty_iff {sln : Solution} {c : Client} {e : Errno} {outcomes : Stream' Call}
    (hlen : sendLength sln = 0) :
    NeverReturns sln c e outcomes ↔ e.isTimeout = false ∧ e ≠ .ECONNRESET := by
  have hsend : sendAll (UInt32.ofNat (totalLength sln)) [] = some ⟨0, 0, none⟩ := by
    rw [show UInt32.ofNat (totalLength sln) = 0 from hlen]
    rfl
  constructor
  · intro hnever
    have htime := hnever.not_timeout hsend
    have hflat : ([] ++ [[]] : List (List Call)).flatten = outcomes.take 0 := rfl
    obtain ⟨c₁, hrule, -⟩ := hnever.goes_on hflat (fun _ => rfl) hsend
    cases hrule with
    | again _ _ hreset => exact ⟨htime, hreset⟩
    | delay _ htrue => exact absurd (htime.symm.trans htrue) Bool.false_ne_true
  · rintro ⟨htime, hreset⟩ n rounds -
    induction rounds with
    | nil => rfl
    | cons calls rounds ih =>
      by_contra hsome
      obtain ⟨r, hr⟩ := Option.ne_none_iff_exists'.1 hsome
      obtain ⟨t, next, hcalls, hrule, -, hend⟩ := sendLoop_cons hr
      rw [show UInt32.ofNat (totalLength sln) = 0 from hlen] at hcalls
      obtain ⟨rfl, rfl⟩ := sendAll_zero hcalls
      rw [Option.getD_none] at hrule hend
      cases hrule with
      | hang _ htrue | delay _ htrue => simp [htime] at htrue
      | reset _ herr => exact hreset herr
      | again =>
        have hloop : sendLoop sln c e rounds = some r := by simpa using hend
        rw [ih] at hloop
        cases hloop
      | short hpos | whole hpos => exact absurd hpos (Int.lt_irrefl 0)

/-- The client when the retry loop for its first solution begins. -/
def Client.popped (c : Client) (sln : Solution) (rest : List Solution) : Client :=
  { c with
    solutionsQueue := rest
    checkingSolution := some sln
    sendPkt := solutionPacket sln }

theorem returns_iff_not_never {c : Client} {sln : Solution} {rest : List Solution} {e : Errno}
    {outcomes : Stream' Call} (hqueue : c.solutionsQueue = sln :: rest) :
    Returns c e outcomes ↔ ¬ NeverReturns sln (c.popped sln rest) e outcomes := by
  have hprocess : ∀ rounds,
      processSolutions c e rounds = sendLoop sln (c.popped sln rest) e rounds := by
    intro rounds
    simp [processSolutions, Client.popSolution, hqueue, Client.popped]
  constructor
  · rintro ⟨n, rounds, ret, c', e', hflat, hret, -⟩ hnever
    rw [hprocess, hnever n rounds hflat] at hret
    cases hret
  · intro hsome
    unfold NeverReturns at hsome
    push Not at hsome
    obtain ⟨n, rounds, hflat, hne⟩ := hsome
    obtain ⟨⟨ret, c', e'⟩, hr⟩ := Option.ne_none_iff_exists'.1 hne
    refine ⟨n, rounds, ret, c', e', hflat, by rw [hprocess, hr], fun x hx => ?_⟩
    obtain rfl : sln = x := by simpa [hqueue] using hx
    exact sendLoop_value hr

theorem neverReturns_iff {sln : Solution} {c : Client} {e : Errno} {outcomes : Stream' Call}
    (hs : SendsOrFails (sendLength sln).toNat outcomes) (hlen : sendLength sln ≠ 0) :
    NeverReturns sln c e outcomes ↔
      FailsForever c.lastSendDelay (sendLength sln).toNat outcomes := by
  refine ⟨failsForever_of_never hs hlen, fun hf n rounds hflat => ?_⟩
  exact sendLoop_failing hs hlen hf (p := 0) rfl (delayAfter_zero _).symm hflat

/-- `process_solutions` returns, with the value that tells how, exactly when its retry loop
is not stuck. -/
theorem returns_iff (c : Client) (e : Errno) (outcomes : Stream' Call)
    (h : ∀ sln, c.solutionsQueue.head? = some sln →
      SendsOrFails (sendLength sln).toNat outcomes) :
    Returns c e outcomes ↔ ¬ RetriesForever c e outcomes := by
  cases hqueue : c.solutionsQueue with
  | nil =>
    have hreturn : processSolutions c e [] = some (0, c, e) := by
      simp [processSolutions, Client.popSolution, hqueue]
    refine iff_of_true ⟨0, [], 0, c, e, rfl, hreturn, by simp [hqueue]⟩ ?_
    rintro ⟨sln, hsln, -⟩
    simp [hqueue] at hsln
  | cons sln rest =>
    have hs := h sln (by simp [hqueue])
    have hforever : RetriesForever c e outcomes ↔
        sendLength sln = 0 ∧ e.isTimeout = false ∧ e ≠ .ECONNRESET ∨
          sendLength sln ≠ 0 ∧ FailsForever c.lastSendDelay (sendLength sln).toNat outcomes := by
      simp [RetriesForever, hqueue]
    rw [returns_iff_not_never hqueue, not_iff_not, hforever]
    by_cases hlen : sendLength sln = 0
    · rw [neverReturns_empty_iff hlen]
      simp [hlen]
    · rw [neverReturns_iff hs hlen]
      simp [hlen, Client.popped]

/-- Every `send` times out. -/
theorem returns_iff_hanging :
    Returns queuedClient (.other 0) (Stream'.const (.failed .EAGAIN)) ↔
      ¬ RetriesForever queuedClient (.other 0) (Stream'.const (.failed .EAGAIN)) :=
  returns_iff queuedClient (.other 0) _ fun _ _ _ _ => ⟨trivial, by simp [Stream'.get_const]⟩

/-- The socket has been closed by another thread, and every `send` fails with EBADF (9). -/
theorem retries_forever :
    SendsOrFails (sendLength (sampleSolution 0 1)).toNat (Stream'.const (.failed (.other 9))) ∧
      ¬ Returns queuedClient (.other 0) (Stream'.const (.failed (.other 9))) := by
  have hs : SendsOrFails (sendLength (sampleSolution 0 1)).toNat
      (Stream'.const (.failed (.other 9))) := fun _ _ => ⟨trivial, by simp [Stream'.get_const]⟩
  have hprogress : ∀ i, progress (Stream'.const (.failed (.other 9))) i = 0 := by
    intro i
    cases i with
    | zero => rfl
    | succ i => simp [progress, Stream'.get_const]
  have htimes : ∀ i, timeoutsBy (Stream'.const (.failed (.other 9))) i = 0 := by
    intro i
    induction i with
    | zero => rfl
    | succ i ih =>
      rw [timeoutsBy] at ih ⊢
      rw [Stream'.take_succ', List.countP_append, ih]
      rfl
  refine ⟨hs, ?_⟩
  rw [returns_iff_not_never (c := queuedClient) rfl, not_not, neverReturns_iff hs (by decide)]
  refine ⟨fun i => ?_, fun i => by simp [Stream'.get_const], fun i hi => ?_, fun n => ?_⟩
  · rw [hprogress]
    decide
  · rw [htimes] at hi
    cases hi
  · exact ⟨n, .other 9, le_rfl, Stream'.get_const .., by decide⟩

end JudgeServer
