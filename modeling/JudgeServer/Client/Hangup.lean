import JudgeServer.Client.Retry
import JudgeServer.Client.Silence

/-! `client_loop` after the peer has closed the connection, from every place where its thread
can be. Each `recv` then returns 0 and leaves `errno` alone, but the branch that the loop takes
depends on `errno`. -/

namespace JudgeServer

open Transition

/-- The thread is in the loop, and has not decided to leave it. -/
def LoopPc.inLoop : LoopPc → Bool
  | .removing | .ended | .fault => false
  | _ => true

/-- The next call of the loop, with the value that is in `errno` when it is made. -/
def answered (s : Client × Locals) (a : Errno × LoopEv) : Option (Client × Locals) :=
  loopStep (s.1, { s.2 with errno := a.1 }) a.2

/-- A call after the peer has closed the connection, with the server running and nothing
pushed: a receive ends with 0, at the latest, and the rest may have any outcome. For a body of
length 0 nothing is received. -/
def PeerGone (pc : LoopPc) : LoopEv → Prop
  | .running server => server = true
  | .recvLen arrivals => .closed ∈ arrivals
  | .recvBody arrivals _ => pc = .recvBody 0 ∨ .closed ∈ arrivals
  | .push _ | .errno _ => False
  | _ => True

/-- `answers` are what the calls of the loop find from `s₀` on. -/
def ClosedPeer (s₀ : Client × Locals) (answers : Stream' (Errno × LoopEv)) : Prop :=
  ∀ n s, Run answered s₀ (answers.take n) s → s.2.pc.inLoop = true →
    (answered s (answers.get n)).isSome ∧ PeerGone s.2.pc (answers.get n).2

/-- After finitely many calls the loop ends in `remove_client`. -/
def LeavesLoop (s₀ : Client × Locals) (answers : Stream' (Errno × LoopEv)) : Prop :=
  ∃ n s, Run answered s₀ (answers.take n) s ∧ s.2.pc = .removing

/-! When the closed connection is noticed. -/

/-- `last_recv_delay` after `k` timeouts with a solution outstanding. -/
def recvDelayAfter (delay : UInt16) (k : ℕ) : UInt16 := delay + UInt16.ofNat (5 * k)

/-- What is in `errno` after a `send_all` that has not sent everything. -/
def sendErrno (e : Errno) (calls : List Call) : Option Errno :=
  match calls.getLast? with
  | some (.moved _) => none
  | some (.failed e') => some e'
  | _ => some e

def recvFindsTimeout : Errno × LoopEv → Bool
  | (e, .recvLen _) => e.isTimeout
  | _ => false

def sendFindsTimeout : Errno × LoopEv → Bool
  | (e, .send calls) => (sendErrno e calls).any Errno.isTimeout
  | _ => false

/-- A solution is in the slot at the start, and no result has been handled since. -/
def Outstanding (s₀ : Client × Locals) (answers : Stream' (Errno × LoopEv)) (i : ℕ) : Prop :=
  s₀.1.checkingSolution ≠ none ∧ ∀ j < i, (answers.get j).2 ≠ .clear

/-- Call `i` takes a branch that ends in `remove_client`. -/
inductive NoticedAt (s₀ : Client × Locals) (answers : Stream' (Errno × LoopEv)) (i : ℕ) : Prop
  | reset {arrivals : List Arrival} (hget : answers.get i = (.ECONNRESET, .recvLen arrivals))
  | hang {e : Errno} {arrivals : List Arrival} (hget : answers.get i = (e, .recvLen arrivals))
      (hslot : Outstanding s₀ answers i) (htime : e.isTimeout = true)
      (hmax : RECV_MAX_TIMEOUT ≤
        recvDelayAfter s₀.1.lastRecvDelay ((answers.take (i + 1)).countP recvFindsTimeout))
  | sendReset {e : Errno} {calls : List Call} (hget : answers.get i = (e, .send calls))
      (hfound : sendErrno e calls = some .ECONNRESET)
  | sendHang {e found : Errno} {calls : List Call} (hget : answers.get i = (e, .send calls))
      (hfound : sendErrno e calls = some found) (htime : found.isTimeout = true)
      (hmax : SEND_MAX_TIMEOUT ≤
        delayAfter s₀.1.lastSendDelay ((answers.take (i + 1)).countP sendFindsTimeout))
  | sendShort {e : Errno} {calls : List Call} {sln : Solution}
      (hget : answers.get i = (e, .send calls)) (hmoved : sendErrno e calls = none)
      (hpc : s₀.2.pc = .sending sln) (hlen : 2 ^ 32 ≤ totalLength sln)

theorem recvDelayAfter_zero (delay : UInt16) : recvDelayAfter delay 0 = delay := by
  simp [recvDelayAfter]

theorem recvDelayAfter_succ (delay : UInt16) (k : ℕ) :
    recvDelayAfter delay (k + 1) = recvDelayAfter delay k + RECV_TIMEOUT_SEC := by
  have hfive : RECV_TIMEOUT_SEC = UInt16.ofNat 5 := rfl
  rw [recvDelayAfter, recvDelayAfter, hfive, Nat.mul_succ, UInt16.ofNat_add, UInt16.add_assoc]

/-- Enough timeouts reach the limit from any delay. -/
theorem recvDelayAfter_reaches (delay : UInt16) :
    ∃ k, RECV_MAX_TIMEOUT ≤ recvDelayAfter delay (k + 1) := by
  have hlt := delay.toNat_lt
  have hmax : RECV_MAX_TIMEOUT.toNat = 25 := rfl
  have hreach : ∀ k, 25 ≤ (delay.toNat + 5 * (k + 1)) % 65536 →
      RECV_MAX_TIMEOUT ≤ recvDelayAfter delay (k + 1) := by
    intro k hk
    rw [UInt16.le_iff_toNat_le, hmax, recvDelayAfter, UInt16.toNat_add, UInt16.toNat_ofNat']
    omega
  by_cases hlow : delay.toNat < 65511
  · exact ⟨4, hreach 4 (by omega)⟩
  by_cases hwrap : delay.toNat < 65531
  · exact ⟨0, hreach 0 (by omega)⟩
  · exact ⟨5, hreach 5 (by omega)⟩

/-- A `recv_all` that meets the end of the stream returns 0 and leaves `errno` alone. -/
theorem recvAll_closed {n : UInt32} {arrivals : List Arrival} {t : Transfer}
    (h : recvAll n arrivals = some t) (hmem : .closed ∈ arrivals) : t.ret = 0 ∧ t.errno = none := by
  have hcall : Call.closed ∈ arrivals.map Arrival.call := List.mem_map.2 ⟨_, hmem, rfl⟩
  obtain ⟨-, ⟨hall, -⟩ | ⟨before, last, hsplit, hall, -, -, hret, herrno⟩⟩ := transferLoop_stops h
  · exact absurd (hall _ hcall) (lt_irrefl 0)
  · rw [hsplit, List.mem_append, List.mem_singleton] at hcall
    rcases hcall with hcall | rfl
    · exact absurd (hall _ hcall) (lt_irrefl 0)
    · exact ⟨hret, herrno⟩

/-- How a `send_all` ends, by its last call. -/
inductive SendEnds (len : UInt32) (e : Errno) (calls : List Call) (t : Transfer) : Prop
  | whole (hfound : sendErrno e calls = none) (hpos : 0 < t.ret) (hret : t.ret = len.toNat)
  | failed (hfound : sendErrno e calls = some (t.errno.getD e)) (hret : t.ret ≤ 0)

theorem sendAll_sendEnds {len : UInt32} {calls : List Call} {t : Transfer} (e : Errno)
    (h : sendAll len calls = some t) : SendEnds len e calls t := by
  obtain ⟨hmoved, ⟨hall, hsum, hret, herrno⟩ | ⟨before, last, rfl, -, hlast, -, hret, herrno⟩⟩ :=
    transferLoop_stops h
  · rcases List.eq_nil_or_concat calls with rfl | ⟨before, last, rfl⟩
    · refine .failed ?_ ?_
      · rw [herrno]
        rfl
      · rw [hret, hmoved]
        exact le_rfl
    · rw [List.concat_eq_append] at *
      have hpos : 0 < last.ret := hall last (by simp)
      cases last with
      | moved n =>
        refine .whole ?_ ?_ ?_
        · rw [sendErrno, List.getLast?_concat]
        · have hn : 0 < n := by simpa [Call.ret] using hpos
          rw [hret, hmoved, movedBy_append, movedBy_cons]
          simp only [Call.size]
          omega
        · rw [hret, hmoved, hsum, Nat.zero_add]
      | closed | failed => exact absurd hpos (by simp [Call.ret])
  · refine .failed ?_ (by omega)
    rw [sendErrno, List.getLast?_concat, herrno]
    cases last with
    | moved n =>
      have hn : 0 < n := transferLoop_pos h (List.mem_append_right _ (List.mem_singleton_self _))
      exact absurd hn (by simpa [Call.ret] using hlast)
    | closed | failed => rfl

section Closed

variable {s₀ s s' : Client × Locals} {answers : Stream' (Errno × LoopEv)} {n : ℕ} {e found : Errno}

theorem countP_take_succ {α : Type*} (f : α → Bool) (as : Stream' α) (n : ℕ) :
    (as.take (n + 1)).countP f = (as.take n).countP f + if f (as.get n) then 1 else 0 := by
  rw [Stream'.take_succ', List.countP_append, List.countP_singleton]

theorem outstanding_succ :
    Outstanding s₀ answers (n + 1) ↔ Outstanding s₀ answers n ∧ (answers.get n).2 ≠ .clear := by
  rw [Outstanding, Outstanding, Nat.forall_lt_succ_right, and_assoc]

theorem noticed_recv {arrivals : List Arrival} (hget : answers.get n = (e, .recvLen arrivals)) :
    NoticedAt s₀ answers n ↔ e = .ECONNRESET ∨ Outstanding s₀ answers n ∧ e.isTimeout = true ∧
      RECV_MAX_TIMEOUT ≤
        recvDelayAfter s₀.1.lastRecvDelay ((answers.take (n + 1)).countP recvFindsTimeout) := by
  constructor
  · intro h
    cases h with
    | reset h => exact Or.inl (Prod.mk.inj (hget.symm.trans h)).1
    | hang h hslot htime hmax =>
      rw [(Prod.mk.inj (hget.symm.trans h)).1]
      exact Or.inr ⟨hslot, htime, hmax⟩
    | sendReset h | sendHang h | sendShort h => cases (Prod.mk.inj (hget.symm.trans h)).2
  · rintro (rfl | ⟨hslot, htime, hmax⟩)
    · exact .reset hget
    · exact .hang hget hslot htime hmax

theorem noticed_failed {calls : List Call} (hget : answers.get n = (e, .send calls))
    (hfound : sendErrno e calls = some found) :
    NoticedAt s₀ answers n ↔ found = .ECONNRESET ∨ found.isTimeout = true ∧
      SEND_MAX_TIMEOUT ≤
        delayAfter s₀.1.lastSendDelay ((answers.take (n + 1)).countP sendFindsTimeout) := by
  have hsame : ∀ {e' : Errno} {calls' : List Call}, answers.get n = (e', .send calls') →
      sendErrno e' calls' = some found := by
    intro e' calls' h
    obtain ⟨rfl, hev⟩ := Prod.mk.inj (hget.symm.trans h)
    obtain rfl := LoopEv.send.inj hev
    exact hfound
  constructor
  · intro h
    cases h with
    | reset h | hang h => cases (Prod.mk.inj (hget.symm.trans h)).2
    | sendReset h hreset => exact Or.inl (Option.some.inj ((hsame h).symm.trans hreset))
    | sendHang h hfound' htime hmax =>
      rw [Option.some.inj ((hsame h).symm.trans hfound')]
      exact Or.inr ⟨htime, hmax⟩
    | sendShort h hmoved => cases (hsame h).symm.trans hmoved
  · rintro (rfl | ⟨htime, hmax⟩)
    · exact .sendReset hget hfound
    · exact .sendHang hget hfound htime hmax

theorem noticed_whole {calls : List Call} (hget : answers.get n = (e, .send calls))
    (hmoved : sendErrno e calls = none) :
    NoticedAt s₀ answers n ↔ ∃ sln, s₀.2.pc = .sending sln ∧ 2 ^ 32 ≤ totalLength sln := by
  have hsame : ∀ {e' : Errno} {calls' : List Call}, answers.get n = (e', .send calls') →
      sendErrno e' calls' = none := by
    intro e' calls' h
    obtain ⟨rfl, hev⟩ := Prod.mk.inj (hget.symm.trans h)
    obtain rfl := LoopEv.send.inj hev
    exact hmoved
  constructor
  · intro h
    cases h with
    | reset h | hang h => cases (Prod.mk.inj (hget.symm.trans h)).2
    | sendReset h hfound | sendHang h hfound => cases (hsame h).symm.trans hfound
    | sendShort _ _ hpc hlen => exact ⟨_, hpc, hlen⟩
  · rintro ⟨sln, hpc, hlen⟩
    exact .sendShort hget hmoved hpc hlen

/-- Only receives of a length and sends can notice it. -/
theorem not_noticed (hrecv : ∀ e arrivals, answers.get n ≠ (e, .recvLen arrivals))
    (hsend : ∀ e calls, answers.get n ≠ (e, .send calls)) : ¬ NoticedAt s₀ answers n := by
  intro h
  cases h with
  | reset h | hang h => exact hrecv _ _ h
  | sendReset h | sendHang h | sendShort h => exact hsend _ _ h

/-- The thread after `n` calls none of which has noticed the closed connection. -/
structure Remains (s₀ : Client × Locals) (answers : Stream' (Errno × LoopEv)) (n : ℕ)
    (s : Client × Locals) : Prop where
  inLoop : s.2.pc.inLoop = true
  body : s.2.pc ≠ .recvBody 0
  queue : s.1.solutionsQueue = []
  slot : s.1.checkingSolution ≠ none ↔ Outstanding s₀ answers n
  recvDelay : Outstanding s₀ answers n →
    s.1.lastRecvDelay = recvDelayAfter s₀.1.lastRecvDelay ((answers.take n).countP recvFindsTimeout)
  sending : ∀ sln, s.2.pc = .sending sln → s₀.2.pc = .sending sln ∧
    s.1.lastSendDelay = delayAfter s₀.1.lastSendDelay ((answers.take n).countP sendFindsTimeout)

theorem remains_start (hloop : s₀.2.pc.inLoop = true) (hbody : s₀.2.pc ≠ .recvBody 0)
    (hqueue : s₀.1.solutionsQueue = []) : Remains s₀ answers 0 s₀ where
  inLoop := hloop
  body := hbody
  queue := hqueue
  slot := by simp [Outstanding]
  recvDelay _ := (recvDelayAfter_zero _).symm
  sending _ hpc := ⟨hpc, (delayAfter_zero _).symm⟩

/-- A call that leaves the client and goes to another place, other than the send loop. -/
theorem Remains.goes {c : Client} {pc pc' : LoopPc} {e₀ e' : Errno} {ev : LoopEv}
    (h : Remains s₀ answers n (c, ⟨pc, e₀⟩)) (hget : answers.get n = (e, ev))
    (hclear : ev ≠ .clear) (hrecv : recvFindsTimeout (e, ev) = false) (hloop : pc'.inLoop = true)
    (hbody : pc' ≠ .recvBody 0) (hsending : ∀ sln, pc' ≠ .sending sln) :
    Remains s₀ answers (n + 1) (c, ⟨pc', e'⟩) := by
  have hout : Outstanding s₀ answers (n + 1) ↔ Outstanding s₀ answers n := by
    rw [outstanding_succ, hget]
    exact and_iff_left hclear
  refine ⟨hloop, hbody, h.queue, h.slot.trans hout.symm, fun ho => ?_, fun sln hpc =>
    absurd hpc (hsending sln)⟩
  rw [countP_take_succ, hget, hrecv]
  exact h.recvDelay (hout.1 ho)

/-- What a call comes to: it notices the closed connection, or the thread remains. -/
def Goes (s₀ : Client × Locals) (answers : Stream' (Errno × LoopEv)) (n : ℕ)
    (s : Client × Locals) : Prop :=
  NoticedAt s₀ answers n ∧ s.2.pc = .removing ∨
    ¬ NoticedAt s₀ answers n ∧ Remains s₀ answers (n + 1) s

/-- A receive of a length field that returns 0. -/
theorem Remains.recv {c : Client} {e₀ : Errno} {arrivals : List Arrival} {bytes : List UInt8}
    {t : Transfer} (h : Remains s₀ answers n (c, ⟨.recvLen, e₀⟩))
    (hget : answers.get n = (e, .recvLen arrivals)) (hret : t.ret = 0) (herrno : t.errno = none) :
    Goes s₀ answers n (afterRecvLen c ⟨.recvLen, e⟩ bytes t) := by
  have hrule := afterRecvLen_rule c ⟨.recvLen, e⟩ bytes t
  generalize afterRecvLen c ⟨.recvLen, e⟩ bytes t = s' at hrule ⊢
  rw [herrno, Option.getD_none] at hrule
  dsimp only at hrule
  have hout : Outstanding s₀ answers (n + 1) ↔ Outstanding s₀ answers n := by
    rw [outstanding_succ, hget]
    exact and_iff_left (by simp)
  have hcount : (answers.take (n + 1)).countP recvFindsTimeout =
      (answers.take n).countP recvFindsTimeout + if e.isTimeout then 1 else 0 := by
    rw [countP_take_succ, hget]
    rfl
  have hnext : Outstanding s₀ answers n → e.isTimeout = true →
      c.lastRecvDelay + RECV_TIMEOUT_SEC = recvDelayAfter s₀.1.lastRecvDelay
        ((answers.take (n + 1)).countP recvFindsTimeout) := by
    intro ho htime
    have hdelay := h.recvDelay ho
    dsimp only at hdelay
    rw [hcount, if_pos htime, recvDelayAfter_succ, hdelay]
  have hslot : c.checkingSolution ≠ none ↔ Outstanding s₀ answers n := h.slot
  have hremains : ∀ c' : Client, c'.solutionsQueue = c.solutionsQueue →
      c'.checkingSolution = c.checkingSolution →
      (Outstanding s₀ answers n → c'.lastRecvDelay = recvDelayAfter s₀.1.lastRecvDelay
        ((answers.take (n + 1)).countP recvFindsTimeout)) →
      Remains s₀ answers (n + 1) (c', ⟨.top, e⟩) := by
    intro c' hqueue' hslot' hdelay'
    refine ⟨rfl, by simp, hqueue'.trans h.queue, ?_, fun ho => hdelay' (hout.1 ho), by simp⟩
    rw [hout, ← hslot]
    exact not_congr (by rw [hslot'])
  cases hrule with
  | hang _ htime hsome hmax =>
    have ho := hslot.1 hsome
    rw [hnext ho htime] at hmax
    exact Or.inl ⟨(noticed_recv hget).2 (Or.inr ⟨ho, htime, hmax⟩), rfl⟩
  | wait _ htime hsome hlt =>
    have ho := hslot.1 hsome
    rw [hnext ho htime] at hlt
    refine Or.inr ⟨fun hnot => ?_, hremains _ rfl rfl fun ho => hnext ho htime⟩
    rcases (noticed_recv hget).1 hnot with rfl | ⟨-, -, hmax⟩
    · cases htime
    · exact UInt16.not_le.2 hlt hmax
  | idle _ htime hnone =>
    have hnot : ¬ Outstanding s₀ answers n := fun ho => hslot.2 ho hnone
    refine Or.inr ⟨fun hnoticed => ?_, hremains _ rfl rfl fun ho => absurd ho hnot⟩
    rcases (noticed_recv hget).1 hnoticed with rfl | ⟨ho, -⟩
    · cases htime
    · exact hnot ho
  | reset _ hreset => exact Or.inl ⟨(noticed_recv hget).2 (Or.inl hreset), rfl⟩
  | other _ htime hreset =>
    refine Or.inr ⟨fun hnoticed => ?_, hremains _ rfl rfl fun ho => ?_⟩
    · rcases (noticed_recv hget).1 hnoticed with heq | ⟨-, htrue, -⟩
      · exact hreset heq
      · rw [htime] at htrue
        cases htrue
    · rw [hcount, htime]
      exact h.recvDelay ho
  | header hpos => exact absurd hpos (by omega)

/-- A round of the send loop. -/
theorem Remains.send {c : Client} {e₀ : Errno} {sln : Solution} {calls : List Call} {t : Transfer}
    (h : Remains s₀ answers n (c, ⟨.sending sln, e₀⟩))
    (hget : answers.get n = (e, .send calls))
    (hsend : sendAll (UInt32.ofNat (totalLength sln)) calls = some t) :
    Goes s₀ answers n (afterSend c ⟨.sending sln, e⟩ sln t) := by
  obtain ⟨hpc, hdelay⟩ := h.sending sln rfl
  have hrule := sendRound_rule c (t.errno.getD e) (totalLength sln) t
  simp only [afterSend]
  generalize sendRound c (t.errno.getD e) (totalLength sln) t = r at hrule ⊢
  have hout : Outstanding s₀ answers (n + 1) ↔ Outstanding s₀ answers n := by
    rw [outstanding_succ, hget]
    exact and_iff_left (by simp)
  have hrecv : (answers.take (n + 1)).countP recvFindsTimeout =
      (answers.take n).countP recvFindsTimeout := by
    rw [countP_take_succ, hget]
    rfl
  have hcount : (answers.take (n + 1)).countP sendFindsTimeout =
      (answers.take n).countP sendFindsTimeout +
        if (sendErrno e calls).any Errno.isTimeout then 1 else 0 := by
    rw [countP_take_succ, hget]
    rfl
  have hremains : ∀ (c' : Client) (pc : LoopPc), c'.solutionsQueue = c.solutionsQueue →
      c'.checkingSolution = c.checkingSolution → c'.lastRecvDelay = c.lastRecvDelay →
      (pc = .sending sln ∧ c'.lastSendDelay = delayAfter s₀.1.lastSendDelay
        ((answers.take (n + 1)).countP sendFindsTimeout) ∨ pc = .recvLen) →
      Remains s₀ answers (n + 1) (c', ⟨pc, t.errno.getD e⟩) := by
    intro c' pc hqueue' hslot' hrecv' hpc'
    refine ⟨?_, ?_, hqueue'.trans h.queue, ?_, fun ho => ?_, ?_⟩
    · rcases hpc' with ⟨rfl, -⟩ | rfl <;> rfl
    · rcases hpc' with ⟨rfl, -⟩ | rfl <;> simp
    · have hslot : c.checkingSolution ≠ none ↔ Outstanding s₀ answers n := h.slot
      rw [hout, ← hslot]
      exact not_congr (by rw [hslot'])
    · rw [hrecv]
      exact hrecv'.trans (h.recvDelay (hout.1 ho))
    · intro sln' hsln'
      rcases hpc' with ⟨rfl, hdelay'⟩ | rfl
      · obtain rfl := LoopPc.sending.inj hsln'
        exact ⟨hpc, hdelay'⟩
      · cases hsln'
  cases sendAll_sendEnds e hsend with
  | failed hfound hret =>
    have hnext : (t.errno.getD e).isTimeout = true → c.lastSendDelay + SEND_TIMEOUT_SEC =
        delayAfter s₀.1.lastSendDelay ((answers.take (n + 1)).countP sendFindsTimeout) := by
      intro htime
      dsimp only at hdelay
      rw [hcount, hfound, Option.any_some, if_pos htime, delayAfter_succ, hdelay]
    cases hrule with
    | hang _ htime hmax =>
      rw [hnext htime] at hmax
      exact Or.inl ⟨(noticed_failed hget hfound).2 (Or.inr ⟨htime, hmax⟩), rfl⟩
    | delay _ htime hlt =>
      rw [hnext htime] at hlt
      refine Or.inr ⟨fun hnoticed => ?_, hremains _ _ rfl rfl rfl (Or.inl ⟨rfl, hnext htime⟩)⟩
      rcases (noticed_failed hget hfound).1 hnoticed with hreset | ⟨-, hmax⟩
      · rw [hreset] at htime
        cases htime
      · exact UInt16.not_le.2 hlt hmax
    | reset _ hreset => exact Or.inl ⟨(noticed_failed hget hfound).2 (Or.inl hreset), rfl⟩
    | again _ htime hreset =>
      refine Or.inr ⟨fun hnoticed => ?_, hremains _ _ rfl rfl rfl (Or.inl ⟨rfl, ?_⟩)⟩
      · rcases (noticed_failed hget hfound).1 hnoticed with heq | ⟨htrue, -⟩
        · exact hreset heq
        · rw [htime] at htrue
          cases htrue
      · rw [hcount, hfound, Option.any_some, htime]
        exact hdelay
    | short hpos | whole hpos => exact absurd hpos (not_lt.2 hret)
  | whole hmoved hpos hret =>
    have hlen : t.ret = (totalLength sln % 2 ^ 32 : ℕ) := by
      rw [hret, UInt32.toNat_ofNat']
    cases hrule with
    | hang hle | delay hle | reset hle | again hle => exact absurd hpos (not_lt.2 hle)
    | short _ hshort =>
      refine Or.inl ⟨(noticed_whole hget hmoved).2 ⟨sln, hpc, ?_⟩, rfl⟩
      by_contra hlt
      rw [Nat.mod_eq_of_lt (not_le.1 hlt)] at hlen
      exact absurd hlen hshort.ne
    | whole _ hwhole =>
      refine Or.inr ⟨fun hnoticed => ?_, hremains _ _ rfl rfl rfl (Or.inr rfl)⟩
      obtain ⟨sln', hpc', hbig⟩ := (noticed_whole hget hmoved).1 hnoticed
      obtain rfl := LoopPc.sending.inj (hpc.symm.trans hpc')
      have hmod := Nat.mod_lt (totalLength sln) (y := 2 ^ 32) (by decide)
      omega

/-- One call, from every place of the loop. -/
theorem Remains.step (h : Remains s₀ answers n s) (hs : answered s (answers.get n) = some s')
    (hgone : PeerGone s.2.pc (answers.get n).2) : Goes s₀ answers n s' := by
  obtain ⟨c, pc, e₀⟩ := s
  rcases hget : answers.get n with ⟨e, ev⟩
  rw [hget] at hs hgone
  have hrule := loopStep_rule hs
  have hquiet : ∀ {pc' : LoopPc} {e' : Errno}, ev ≠ .clear → (∀ arrivals, ev ≠ .recvLen arrivals) →
      (∀ calls, ev ≠ .send calls) → pc'.inLoop = true → pc' ≠ .recvBody 0 →
      (∀ sln, pc' ≠ .sending sln) → Goes s₀ answers n (c, ⟨pc', e'⟩) := by
    intro pc' e' hclear hrecv hsend hloop hbody hsending
    refine Or.inr ⟨not_noticed (fun _ arrivals heq => ?_) fun _ calls heq => ?_,
      h.goes hget hclear ?_ hloop hbody hsending⟩
    · exact hrecv arrivals (Prod.mk.inj (hget.symm.trans heq)).2
    · exact hsend calls (Prod.mk.inj (hget.symm.trans heq)).2
    · cases ev with
      | recvLen arrivals => exact absurd rfl (hrecv arrivals)
      | _ => rfl
  cases hrule with
  | push | errno => cases hgone
  | running =>
    obtain rfl : _ = true := hgone
    exact hquiet (by simp) (by simp) (by simp) rfl (by simp) (by simp)
  | idle => exact hquiet (by simp) (by simp) (by simp) rfl (by simp) (by simp)
  | pop hpop =>
    rw [popSolution_none h.queue] at hpop
    cases hpop
  | send hsend => exact h.send hget hsend
  | recvLen hrecv =>
    obtain ⟨hret, herrno⟩ := recvAll_closed hrecv hgone
    exact h.recv hget hret herrno
  | @recvBody _ m arrivals beyond t hrecv =>
    have hm : m ≠ 0 := fun hm => h.body (by rw [hm])
    obtain ⟨hret, -⟩ := recvAll_closed hrecv (hgone.resolve_left (by simpa using hm))
    have hbroken : t.ret ≠ (m.toNat : ℤ) := by
      rw [hret]
      intro hzero
      exact hm (UInt16.toNat_inj.1 (Int.ofNat.inj hzero).symm)
    simp only [afterRecvBody, if_pos hbroken]
    exact hquiet (by simp) (by simp) (by simp) rfl (by simp) (by simp)
  | post => exact hquiet (by simp) (by simp) (by simp) rfl (by simp) (by simp)
  | clear =>
    have hnot : ¬ Outstanding s₀ answers (n + 1) := by
      rw [outstanding_succ, hget]
      simp
    refine Or.inr ⟨not_noticed (by simp [hget]) (by simp [hget]), rfl, by simp, h.queue, ?_,
      fun ho => absurd ho hnot, by simp⟩
    exact iff_of_false (by simp [Client.clearChecking]) hnot

/-- As long as no call notices the closed connection, the thread stays in the loop. -/
theorem remains_run (hbody : s₀.2.pc ≠ .recvBody 0) (hqueue : s₀.1.solutionsQueue = [])
    (hloop : s₀.2.pc.inLoop = true) (hclosed : ClosedPeer s₀ answers)
    (hnot : ∀ i < n, ¬ NoticedAt s₀ answers i) :
    ∃ s, Run answered s₀ (answers.take n) s ∧ Remains s₀ answers n s := by
  induction n with
  | zero => exact ⟨s₀, Run.nil, remains_start hloop hbody hqueue⟩
  | succ n ih =>
    obtain ⟨s, hrun, hremains⟩ := ih fun i hi => hnot i (by omega)
    obtain ⟨hsome, hgone⟩ := hclosed n s hrun hremains.inLoop
    obtain ⟨s', hs⟩ := Option.isSome_iff_exists.1 hsome
    refine ⟨s', ?_, ?_⟩
    · rw [Stream'.take_succ']
      exact hrun.snoc hs
    · exact ((hremains.step hs hgone).resolve_left fun h => hnot n (by omega) h.1).2

theorem leaves_of_noticed {i : ℕ} (hbody : s₀.2.pc ≠ .recvBody 0)
    (hqueue : s₀.1.solutionsQueue = []) (hloop : s₀.2.pc.inLoop = true)
    (hclosed : ClosedPeer s₀ answers) (h : NoticedAt s₀ answers i) : LeavesLoop s₀ answers := by
  classical
  -- the first call to notice it is reached
  have hfirst := Nat.find_spec ⟨i, h⟩
  obtain ⟨s, hrun, hremains⟩ :=
    remains_run hbody hqueue hloop hclosed fun j hj => Nat.find_min ⟨i, h⟩ hj
  obtain ⟨hsome, hgone⟩ := hclosed _ s hrun hremains.inLoop
  obtain ⟨s', hs⟩ := Option.isSome_iff_exists.1 hsome
  obtain ⟨-, hpc⟩ | ⟨hnot, -⟩ := hremains.step hs hgone
  · refine ⟨Nat.find ⟨i, h⟩ + 1, s', ?_, hpc⟩
    rw [Stream'.take_succ']
    exact hrun.snoc hs
  · exact absurd hfirst hnot

/-- Of a body of length 0 the opcode is read from no memory at all. -/
theorem empty_body_run {as : List (Errno × LoopEv)} (hrun : Run answered s as s')
    (hpc : s.2.pc = .recvBody 0 ∨ s.2.pc = .fault) : s'.2.pc = .recvBody 0 ∨ s'.2.pc = .fault := by
  induction hrun with
  | nil => exact hpc
  | @snoc as a s₁ s₂ hr hs ih =>
    obtain ⟨e, ev⟩ := a
    obtain ⟨c, pc, e₁⟩ := s₁
    have hrule := loopStep_rule hs
    obtain rfl | rfl : pc = .recvBody 0 ∨ pc = .fault := ih
    · cases hrule with
      | push | errno => exact Or.inl rfl
      | @recvBody _ _ arrivals beyond t hrecv =>
        have hempty : received arrivals = [] ∧ t.ret = 0 := by
          cases recvAll_ends hrecv with
          | complete hlen => exact ⟨List.length_eq_zero_iff.1 hlen, rfl⟩
          | closed hlen | failed hlen => exact absurd hlen (Nat.not_lt_zero _)
        refine Or.inr ?_
        simp [afterRecvBody, hempty, decodePacket]
    · cases hrule with
      | push | errno => exact Or.inr rfl

theorem noticed_of_leaves (hqueue : s₀.1.solutionsQueue = []) (hloop : s₀.2.pc.inLoop = true)
    (hclosed : ClosedPeer s₀ answers) (h : LeavesLoop s₀ answers) :
    s₀.2.pc ≠ .recvBody 0 ∧ ∃ i, NoticedAt s₀ answers i := by
  obtain ⟨n, s, hrun, hpc⟩ := h
  have hbody : s₀.2.pc ≠ .recvBody 0 := by
    intro hzero
    rcases empty_body_run hrun (Or.inl hzero) with hend | hend <;> rw [hpc] at hend <;> cases hend
  refine ⟨hbody, ?_⟩
  by_contra hnone
  push Not at hnone
  obtain ⟨s', hrun', hremains⟩ := remains_run (n := n) hbody hqueue hloop hclosed fun i _ => hnone i
  obtain rfl := hrun.unique hrun'
  have hin := hremains.inLoop
  rw [hpc] at hin
  cases hin

end Closed

/-- From every place of the loop: it ends in `remove_client` exactly when it is not about to
read the opcode of an empty body, and some call notices that the connection is gone. -/
theorem leaves_loop_iff (s₀ : Client × Locals) (answers : Stream' (Errno × LoopEv))
    (hqueue : s₀.1.solutionsQueue = []) (hloop : s₀.2.pc.inLoop = true)
    (hclosed : ClosedPeer s₀ answers) :
    LeavesLoop s₀ answers ↔ s₀.2.pc ≠ .recvBody 0 ∧ ∃ i, NoticedAt s₀ answers i :=
  ⟨noticed_of_leaves hqueue hloop hclosed, fun ⟨hbody, _, hi⟩ =>
    leaves_of_noticed hbody hqueue hloop hclosed hi⟩

/-! The iterations of a client with an empty queue, with one value in `errno` all the time. -/

def closedRounds (e : Errno) : Stream' (Errno × LoopEv) := fun i =>
  (e, if i % 3 = 0 then .running true else if i % 3 = 1 then .process else .recvLen [.closed])

theorem closedRounds_get (e : Errno) (k : ℕ) :
    (closedRounds e).get (3 * k) = (e, .running true) ∧
      (closedRounds e).get (3 * k + 1) = (e, .process) ∧
        (closedRounds e).get (3 * k + 2) = (e, .recvLen [.closed]) := by
  refine ⟨?_, ?_, ?_⟩ <;> simp [closedRounds, Stream'.get, Nat.add_mod]

theorem closedRounds_ne {e : Errno} {ev : LoopEv} {i : ℕ} (hhead : .running true ≠ ev)
    (hprocess : .process ≠ ev) (hrecv : .recvLen [.closed] ≠ ev) : ((closedRounds e).get i).2 ≠ ev := by
  simp only [closedRounds, Stream'.get]
  split_ifs <;> assumption

/-- The place from which the thread makes call `n`. -/
def placeAt (n : ℕ) : LoopPc := if n % 3 = 0 then .top else if n % 3 = 1 then .process else .recvLen

theorem closedRounds_place {c : Client} {e₀ e : Errno} {s : Client × Locals} {n : ℕ}
    (hqueue : c.solutionsQueue = [])
    (hrun : Run answered (c, ⟨.top, e₀⟩) ((closedRounds e).take n) s) :
    s.1.solutionsQueue = [] ∧ (s.2.pc.inLoop = true → s.2.pc = placeAt n) := by
  induction n generalizing s with
  | zero =>
    obtain rfl := Run.nil_iff.1 hrun
    exact ⟨hqueue, fun _ => rfl⟩
  | succ n ih =>
    rw [Stream'.take_succ', Run.snoc_iff] at hrun
    obtain ⟨⟨c₁, pc, e₁⟩, hrun, hs⟩ := hrun
    obtain ⟨hqueue₁, hplace⟩ := ih hrun
    have hget := closedRounds_get e (n / 3)
    have hdiv := Nat.div_add_mod n 3
    have hrule := loopStep_rule hs
    dsimp only at hrule hqueue₁ hplace
    obtain hmod | hmod | hmod : n % 3 = 0 ∨ n % 3 = 1 ∨ n % 3 = 2 := by omega
    · rw [show n = 3 * (n / 3) by omega, hget.1] at hrule
      cases hrule with
      | running => exact ⟨hqueue₁, fun _ => by simp [placeAt, Nat.add_mod, hmod]⟩
    · rw [show n = 3 * (n / 3) + 1 by omega, hget.2.1] at hrule
      cases hrule with
      | idle => exact ⟨hqueue₁, fun _ => by simp [placeAt, Nat.add_mod, hmod]⟩
      | pop hpop =>
        rw [popSolution_none hqueue₁] at hpop
        cases hpop
    · rw [show n = 3 * (n / 3) + 2 by omega, hget.2.2] at hrule
      cases hrule with
      | @recvLen _ _ t hrecv =>
        obtain ⟨hret, -⟩ := recvAll_closed hrecv (List.mem_singleton_self _)
        refine ⟨(afterRecvLen_same c₁ ⟨.recvLen, e⟩ (received [.closed]) t).queue.trans hqueue₁, ?_⟩
        have hend := afterRecvLen_rule c₁ ⟨.recvLen, e⟩ (received [.closed]) t
        generalize afterRecvLen c₁ ⟨.recvLen, e⟩ (received [.closed]) t = s' at hend ⊢
        have htop : placeAt (n + 1) = .top := by simp [placeAt, Nat.add_mod, hmod]
        cases hend with
        | hang | reset => intro hin; cases hin
        | wait | idle | other => exact fun _ => htop.symm
        | header hpos => exact absurd hpos (by omega)

theorem closedRounds_closed {c : Client} (e₀ e : Errno) (hqueue : c.solutionsQueue = []) :
    ClosedPeer (c, ⟨.top, e₀⟩) (closedRounds e) := by
  intro n s hrun hin
  obtain ⟨hqueue', hplace⟩ := closedRounds_place hqueue hrun
  obtain ⟨c', pc, e'⟩ := s
  have hget := closedRounds_get e (n / 3)
  have hdiv := Nat.div_add_mod n 3
  obtain rfl : pc = placeAt n := hplace hin
  obtain hmod | hmod | hmod : n % 3 = 0 ∨ n % 3 = 1 ∨ n % 3 = 2 := by omega
  · have hpc : placeAt n = .top := by simp [placeAt, hmod]
    rw [show n = 3 * (n / 3) by omega, hget.1, ← show n = 3 * (n / 3) by omega, hpc]
    exact ⟨rfl, rfl⟩
  · have hpc : placeAt n = .process := by simp [placeAt, hmod]
    rw [show (closedRounds e).get n = (e, .process) by
      rw [show n = 3 * (n / 3) + 1 by omega, hget.2.1], hpc]
    refine ⟨?_, trivial⟩
    rw [answered, loopStep_idle (popSolution_none hqueue')]
    rfl
  · have hpc : placeAt n = .recvLen := by simp [placeAt, hmod]
    rw [show (closedRounds e).get n = (e, .recvLen [.closed]) by
      rw [show n = 3 * (n / 3) + 2 by omega, hget.2.2], hpc]
    have hrecv : recvAll 2 [.closed] = some ⟨0, 0, none⟩ := by decide
    refine ⟨?_, List.mem_singleton_self _⟩
    rw [answered, loopStep_recvLen hrecv]
    rfl

/-- The receives of the first `k` iterations. -/
theorem closedRounds_countP (e : Errno) (k : ℕ) :
    ((closedRounds e).take (3 * k)).countP recvFindsTimeout = if e.isTimeout then k else 0 := by
  induction k with
  | zero => simp
  | succ k ih =>
    obtain ⟨hhead, hprocess, hrecv⟩ := closedRounds_get e k
    rw [Nat.mul_succ, countP_take_succ, hrecv, countP_take_succ, hprocess, countP_take_succ, hhead,
      ih]
    cases he : e.isTimeout <;> simp [recvFindsTimeout, he]

/-- With one value in `errno` all the time, from the head of the loop. -/
theorem closed_rounds_iff {c : Client} (e₀ e : Errno) (hqueue : c.solutionsQueue = []) :
    LeavesLoop (c, ⟨.top, e₀⟩) (closedRounds e) ↔
      e = .ECONNRESET ∨ c.checkingSolution ≠ none ∧ e.isTimeout = true := by
  have hclosed := closedRounds_closed e₀ e hqueue
  constructor
  · intro h
    obtain ⟨-, i, hi⟩ := noticed_of_leaves hqueue rfl hclosed h
    have hsame : ∀ {e' : Errno} {ev : LoopEv}, (closedRounds e).get i = (e', ev) → e' = e :=
      fun h => (Prod.mk.inj h).1.symm
    have hquiet : ∀ calls, ((closedRounds e).get i).2 ≠ .send calls := fun _ =>
      closedRounds_ne (by simp) (by simp) (by simp)
    cases hi with
    | reset hget => exact Or.inl (hsame hget).symm
    | hang hget hslot htime => exact Or.inr ⟨hslot.1, hsame hget ▸ htime⟩
    | sendReset hget | sendHang hget | sendShort hget => exact absurd (congrArg Prod.snd hget) (hquiet _)
  · rintro (rfl | ⟨hslot, htime⟩)
    · exact leaves_of_noticed (by simp) hqueue rfl hclosed (.reset (closedRounds_get _ 0).2.2)
    · obtain ⟨k, hk⟩ := recvDelayAfter_reaches c.lastRecvDelay
      have hcount := closedRounds_countP e (k + 1)
      rw [if_pos htime] at hcount
      refine leaves_of_noticed (by simp) hqueue rfl hclosed
        (.hang (closedRounds_get e k).2.2 ⟨hslot, fun j _ => ?_⟩ htime (hcount.symm ▸ hk))
      exact closedRounds_ne (by simp) (by simp) (by simp)

/-- The client has registered, and a receive of a length field has met a timeout. -/
def registeredOnly : List LoopEv := [.running true, .process, .recvLen [.failed .EAGAIN]]

/-- Nothing is outstanding: with the timeout's `EAGAIN` still in `errno` the loop goes round. -/
theorem closed_goes_round :
    ∃ (s : Client × Locals) (answers : Stream' (Errno × LoopEv)),
      Run loopStep (loopStart 1 (.other 0)) registeredOnly s ∧ s.1.solutionsQueue = [] ∧
        s.2.pc.inLoop = true ∧ s.2.errno = .EAGAIN ∧ ClosedPeer s answers ∧
          ¬ LeavesLoop s answers := by
  refine ⟨(clientCreate 1, ⟨.top, .EAGAIN⟩), closedRounds .EAGAIN, Run.iff_foldlM.2 rfl, rfl, rfl,
    rfl, closedRounds_closed _ _ rfl, fun h => ?_⟩
  obtain hreset | ⟨hslot, -⟩ := (closed_rounds_iff _ _ rfl).1 h
  · cases hreset
  · exact hslot rfl

/-- A solution is out with the client, and no timeout has been counted yet. -/
def judgingClient : Client := { clientCreate 1 with checkingSolution := some (sampleSolution 0 1) }

/-- The fifth of the receives that find `EAGAIN` gives up. -/
theorem leaves_loop_iff_judging :
    LeavesLoop (judgingClient, ⟨.top, .other 0⟩) (closedRounds .EAGAIN) ∧
      NoticedAt (judgingClient, ⟨.top, .other 0⟩) (closedRounds .EAGAIN) 14 := by
  have hnoticed : NoticedAt (judgingClient, ⟨.top, .other 0⟩) (closedRounds .EAGAIN) 14 :=
    .hang (closedRounds_get .EAGAIN 4).2.2
      ⟨by simp [judgingClient], fun _ _ => closedRounds_ne (by simp) (by simp) (by simp)⟩ rfl (by decide)
  exact ⟨(leaves_loop_iff _ _ rfl rfl (closedRounds_closed _ _ rfl)).2 ⟨by simp, 14, hnoticed⟩,
    hnoticed⟩

end JudgeServer
