import JudgeServer.Client.Packet
import JudgeServer.Utils.Transfer

/-! `client_loop` of server.c after the handshake, with `process_solutions`, as a
step function of one client and of the local state of its thread. Each event is one
section under `client->mutex` or one call into the network or the database, with
what the environment answers; a push by another thread may come between any two. -/

namespace JudgeServer

def CLI_SENDTIMEOUT : ℤ := -3

def CLI_CONNERROR : ℤ := -4

def RECV_TIMEOUT_SEC : UInt16 := 5

def SEND_TIMEOUT_SEC : UInt16 := 6

def RECV_MAX_TIMEOUT : UInt16 := RECV_TIMEOUT_SEC * 5

def SEND_MAX_TIMEOUT : UInt16 := SEND_TIMEOUT_SEC * 3

/-- `client_t`. The queue is the list of its elements, `locked` tells that a thread
stays inside `client->mutex` over several steps; the endpoint and the receive
buffer have no state of their own. -/
structure Client where
  id : UInt32
  solutionsQueue : List Solution
  checkingSolution : Option Solution
  sendPkt : List UInt8
  lastRecvDelay : UInt16
  lastSendDelay : UInt16
  locked : Bool
  deriving DecidableEq, Repr

def clientCreate (id : UInt32) : Client := ⟨id, [], none, [], 0, 0, false⟩

def Client.push (c : Client) (sln : Solution) : Client :=
  { c with solutionsQueue := c.solutionsQueue ++ [sln] }

/-- Where the thread of a client stands in its loop. -/
inductive LoopPc
  | top
  | process
  | sending (sln : Solution)
  | recvLen
  | recvBody (resLen : UInt16)
  | posting (solutionId : UInt32) (resultCode testNumber : UInt8)
  | clearing
  | removing
  | ended
  | fault
  deriving DecidableEq, Repr

/-- The thread's local state: its place in the loop and its `errno`. -/
structure Locals where
  pc : LoopPc
  errno : Errno
  deriving DecidableEq, Repr

inductive LoopEv
  | running (server : Bool)
  | process
  | send (calls : List Call)
  | recvLen (arrivals : List Arrival)
  | recvBody (arrivals : List Arrival) (beyond : List UInt8)
  | post (ok : Bool)
  | clear
  | push (sln : Solution)
  | errno (e : Errno)
  deriving DecidableEq, Repr

/-- The locked section of `process_solutions`, and the packet built after it. -/
def Client.popSolution (c : Client) : Option (Solution × Client) :=
  match c.solutionsQueue with
  | [] => none
  | sln :: rest => some (sln, { c with
      solutionsQueue := rest
      checkingSolution := some sln
      sendPkt := solutionPacket sln })

/-- One round of the send loop of `process_solutions`: the return value, or `none`
for another round. -/
def sendRound (c : Client) (errno : Errno) (total : ℕ) (t : Transfer) : Client × Option ℤ :=
  if t.ret ≤ 0 then
    if errno.isTimeout then
      let c' := { c with lastSendDelay := c.lastSendDelay + SEND_TIMEOUT_SEC }
      if c'.lastSendDelay ≥ SEND_MAX_TIMEOUT then (c', some CLI_SENDTIMEOUT) else (c', none)
    else if errno = .ECONNRESET then (c, some CLI_CONNERROR)
    else (c, none)
  else if t.ret < total then (c, some CLI_CONNERROR)
  else (c, some 0)

def afterSend (c : Client) (l : Locals) (sln : Solution) (t : Transfer) : Client × Locals :=
  let errno := t.errno.getD l.errno
  let r := sendRound c errno (totalLength sln) t
  let pc := match r.2 with
    | none => .sending sln
    | some status =>
      if status = CLI_SENDTIMEOUT ∨ status = CLI_CONNERROR then .removing else .recvLen
  (r.1, ⟨pc, errno⟩)

/-- The branches on `recvd <= 0`, and the length field otherwise. -/
def afterRecvLen (c : Client) (l : Locals) (bytes : List UInt8) (t : Transfer) : Client × Locals :=
  let errno := t.errno.getD l.errno
  if t.ret ≤ 0 then
    if errno.isTimeout then
      if c.checkingSolution ≠ none then
        let c' := { c with lastRecvDelay := c.lastRecvDelay + RECV_TIMEOUT_SEC }
        if c'.lastRecvDelay ≥ RECV_MAX_TIMEOUT then (c', ⟨.removing, errno⟩) else (c', ⟨.top, errno⟩)
      else if c.lastRecvDelay > 0 then ({ c with lastRecvDelay := 0 }, ⟨.top, errno⟩)
      else (c, ⟨.top, errno⟩)
    else if errno = .ECONNRESET then (c, ⟨.removing, errno⟩)
    else (c, ⟨.top, errno⟩)
  else (c, ⟨.recvBody (readBe16 bytes 0), errno⟩)

/-- The switch on the opcode. The reads may run past the packet, into `beyond`; of an
empty packet `realloc` leaves no buffer to read from. -/
def decodePacket (pkt beyond : List UInt8) : LoopPc :=
  if pkt = [] then .fault
  else if (pkt ++ beyond).getD 0 0 = OP_RESULT then
    .posting (readBe32 (pkt ++ beyond) 1) ((pkt ++ beyond).getD 5 0) ((pkt ++ beyond).getD 6 0)
  else .top

def afterRecvBody (c : Client) (l : Locals) (resLen : UInt16) (pkt beyond : List UInt8)
    (t : Transfer) : Client × Locals :=
  let errno := t.errno.getD l.errno
  -- "Broken packet"
  if t.ret ≠ resLen.toNat then (c, ⟨.top, errno⟩)
  else (c, ⟨decodePacket pkt beyond, errno⟩)

/-- The locked section of the OP_RESULT branch. -/
def Client.clearChecking (c : Client) : Client := { c with checkingSolution := none }

def loopStep (s : Client × Locals) (ev : LoopEv) : Option (Client × Locals) :=
  match s.2.pc, ev with
  | _, .push sln => some (s.1.push sln, s.2)
  -- any library call in between may leave another value
  | _, .errno e => some (s.1, { s.2 with errno := e })
  | .top, .running server => some (s.1, { s.2 with pc := if server then .process else .ended })
  | .process, .process =>
    match s.1.popSolution with
    | none => some (s.1, { s.2 with pc := .recvLen })
    | some (sln, c) => some (c, { s.2 with pc := .sending sln })
  | .sending sln, .send calls =>
    (sendAll (UInt32.ofNat (totalLength sln)) calls).map (afterSend s.1 s.2 sln)
  | .recvLen, .recvLen arrivals =>
    (recvAll 2 arrivals).map (afterRecvLen s.1 s.2 (received arrivals))
  | .recvBody resLen, .recvBody arrivals beyond =>
    (recvAll resLen.toUInt32 arrivals).map
      (afterRecvBody s.1 s.2 resLen (received arrivals) beyond)
  | .posting _ _ _, .post _ => some (s.1, { s.2 with pc := .clearing })
  | .clearing, .clear => some (s.1.clearChecking, { s.2 with pc := .top })
  | _, _ => none

theorem popSolution_none {c : Client} (h : c.solutionsQueue = []) : c.popSolution = none := by
  unfold Client.popSolution
  rw [h]

theorem loopStep_idle {c : Client} (h : c.popSolution = none) (e : Errno) :
    loopStep (c, ⟨.process, e⟩) .process = some (c, ⟨.recvLen, e⟩) := by
  unfold loopStep
  dsimp only
  rw [h]

theorem loopStep_pop {c c' : Client} {sln : Solution} (h : c.popSolution = some (sln, c'))
    (e : Errno) : loopStep (c, ⟨.process, e⟩) .process = some (c', ⟨.sending sln, e⟩) := by
  unfold loopStep
  dsimp only
  rw [h]

theorem loopStep_send {sln : Solution} {calls : List Call} {t : Transfer}
    (h : sendAll (UInt32.ofNat (totalLength sln)) calls = some t) (c : Client) (e : Errno) :
    loopStep (c, ⟨.sending sln, e⟩) (.send calls) =
      some (afterSend c ⟨.sending sln, e⟩ sln t) := by
  unfold loopStep
  dsimp only
  rw [h, Option.map_some]

theorem loopStep_recvLen {arrivals : List Arrival} {t : Transfer} (h : recvAll 2 arrivals = some t)
    (c : Client) (e : Errno) :
    loopStep (c, ⟨.recvLen, e⟩) (.recvLen arrivals) =
      some (afterRecvLen c ⟨.recvLen, e⟩ (received arrivals) t) := by
  unfold loopStep
  dsimp only
  rw [h, Option.map_some]

theorem loopStep_recvBody {resLen : UInt16} {arrivals : List Arrival} {beyond : List UInt8}
    {t : Transfer} (h : recvAll resLen.toUInt32 arrivals = some t) (c : Client) (e : Errno) :
    loopStep (c, ⟨.recvBody resLen, e⟩) (.recvBody arrivals beyond) =
      some (afterRecvBody c ⟨.recvBody resLen, e⟩ resLen (received arrivals) beyond t) := by
  unfold loopStep
  dsimp only
  rw [h, Option.map_some]

/-- `c'` holds the same solutions as `c` and is the same client. -/
structure SameHolding (c c' : Client) : Prop where
  queue : c'.solutionsQueue = c.solutionsQueue
  slot : c'.checkingSolution = c.checkingSolution
  id : c'.id = c.id
  locked : c'.locked = c.locked

theorem SameHolding.refl (c : Client) : SameHolding c c := ⟨rfl, rfl, rfl, rfl⟩

theorem sendRound_same (c : Client) (errno : Errno) (total : ℕ) (t : Transfer) :
    SameHolding c (sendRound c errno total t).1 := by
  simp only [sendRound]
  split_ifs <;> exact ⟨rfl, rfl, rfl, rfl⟩

theorem afterSend_same (c : Client) (l : Locals) (sln : Solution) (t : Transfer) :
    SameHolding c (afterSend c l sln t).1 := sendRound_same c _ _ t

theorem afterRecvLen_same (c : Client) (l : Locals) (bytes : List UInt8) (t : Transfer) :
    SameHolding c (afterRecvLen c l bytes t).1 := by
  simp only [afterRecvLen]
  split_ifs <;> exact ⟨rfl, rfl, rfl, rfl⟩

theorem afterRecvBody_same (c : Client) (l : Locals) (resLen : UInt16) (pkt beyond : List UInt8)
    (t : Transfer) : SameHolding c (afterRecvBody c l resLen pkt beyond t).1 := by
  simp only [afterRecvBody]
  split_ifs <;> exact ⟨rfl, rfl, rfl, rfl⟩

/-- What a step does to the queue and to the checking slot: `process_solutions` takes
the first queued solution, the OP_RESULT branch clears the slot, another thread
pushes, and everything else leaves both alone. -/
inductive HoldingChange (c : Client) : LoopEv → Client → Prop
  | pop {c' : Client} {sln : Solution} (hqueue : c.solutionsQueue = sln :: c'.solutionsQueue)
      (hslot : c'.checkingSolution = some sln) : HoldingChange c .process c'
  | clear {c' : Client} (heq : c' = c.clearChecking) : HoldingChange c .clear c'
  | push {c' : Client} {sln : Solution} (heq : c' = c.push sln) : HoldingChange c (.push sln) c'
  | same {ev : LoopEv} {c' : Client} (hsame : SameHolding c c')
      (hproc : ev = .process → c.solutionsQueue = []) (hclear : ev ≠ .clear)
      (hpush : ∀ sln, ev ≠ .push sln) : HoldingChange c ev c'

/-- The rules of the step function, one for each place in the loop. -/
inductive LoopRule (c : Client) : Locals → LoopEv → Client × Locals → Prop
  | push {l : Locals} {sln : Solution} : LoopRule c l (.push sln) (c.push sln, l)
  | errno {pc : LoopPc} {e e' : Errno} : LoopRule c ⟨pc, e⟩ (.errno e') (c, ⟨pc, e'⟩)
  | running {e : Errno} {b : Bool} :
      LoopRule c ⟨.top, e⟩ (.running b) (c, ⟨if b then .process else .ended, e⟩)
  | idle {e : Errno} (hempty : c.solutionsQueue = []) :
      LoopRule c ⟨.process, e⟩ .process (c, ⟨.recvLen, e⟩)
  | pop {e : Errno} {sln : Solution} {c' : Client} (hpop : c.popSolution = some (sln, c')) :
      LoopRule c ⟨.process, e⟩ .process (c', ⟨.sending sln, e⟩)
  | send {e : Errno} {sln : Solution} {calls : List Call} {t : Transfer}
      (hsend : sendAll (UInt32.ofNat (totalLength sln)) calls = some t) :
      LoopRule c ⟨.sending sln, e⟩ (.send calls) (afterSend c ⟨.sending sln, e⟩ sln t)
  | recvLen {e : Errno} {arrivals : List Arrival} {t : Transfer}
      (hrecv : recvAll 2 arrivals = some t) :
      LoopRule c ⟨.recvLen, e⟩ (.recvLen arrivals)
        (afterRecvLen c ⟨.recvLen, e⟩ (received arrivals) t)
  | recvBody {e : Errno} {n : UInt16} {arrivals : List Arrival} {beyond : List UInt8} {t : Transfer}
      (hrecv : recvAll n.toUInt32 arrivals = some t) :
      LoopRule c ⟨.recvBody n, e⟩ (.recvBody arrivals beyond)
        (afterRecvBody c ⟨.recvBody n, e⟩ n (received arrivals) beyond t)
  | post {e : Errno} {id : UInt32} {code test : UInt8} {ok : Bool} :
      LoopRule c ⟨.posting id code test, e⟩ (.post ok) (c, ⟨.clearing, e⟩)
  | clear {e : Errno} : LoopRule c ⟨.clearing, e⟩ .clear (c.clearChecking, ⟨.top, e⟩)

theorem loopStep_rule {s s' : Client × Locals} {ev : LoopEv} (h : loopStep s ev = some s') :
    LoopRule s.1 s.2 ev s' := by
  obtain ⟨c, pc, e⟩ := s
  cases ev with
  | push sln =>
    obtain rfl := Option.some.inj h
    exact .push
  | errno e' =>
    cases pc <;> (obtain rfl := Option.some.inj h; exact .errno)
  | running b =>
    cases pc with
    | top =>
      obtain rfl := Option.some.inj h
      exact .running
    | _ => cases h
  | process =>
    cases pc with
    | process =>
      unfold loopStep at h
      dsimp only at h
      split at h
      · rename_i hnone
        obtain rfl := Option.some.inj h
        refine .idle ?_
        unfold Client.popSolution at hnone
        split at hnone
        · assumption
        · cases hnone
      · rename_i sln c' hpop
        obtain rfl := Option.some.inj h
        exact .pop hpop
    | _ => cases h
  | send calls =>
    cases pc with
    | sending sln =>
      obtain ⟨t, ht, rfl⟩ := Option.map_eq_some_iff.1 h
      exact .send ht
    | _ => cases h
  | recvLen arrivals =>
    cases pc with
    | recvLen =>
      obtain ⟨t, ht, rfl⟩ := Option.map_eq_some_iff.1 h
      exact .recvLen ht
    | _ => cases h
  | recvBody arrivals beyond =>
    cases pc with
    | recvBody n =>
      obtain ⟨t, ht, rfl⟩ := Option.map_eq_some_iff.1 h
      exact .recvBody ht
    | _ => cases h
  | post ok =>
    cases pc with
    | posting id code test =>
      obtain rfl := Option.some.inj h
      exact .post
    | _ => cases h
  | clear =>
    cases pc with
    | clearing =>
      obtain rfl := Option.some.inj h
      exact .clear
    | _ => cases h

theorem popSolution_some {c c' : Client} {sln : Solution} (h : c.popSolution = some (sln, c')) :
    c.solutionsQueue = sln :: c'.solutionsQueue ∧ c'.checkingSolution = some sln ∧
      c'.id = c.id ∧ c'.locked = c.locked := by
  unfold Client.popSolution at h
  split at h
  · cases h
  · rename_i hq
    obtain ⟨rfl, rfl⟩ := Prod.mk.inj (Option.some.inj h)
    exact ⟨hq, rfl, rfl, rfl⟩

theorem loopStep_holding {s s' : Client × Locals} {ev : LoopEv} (h : loopStep s ev = some s') :
    HoldingChange s.1 ev s'.1 := by
  have hrule := loopStep_rule h
  obtain ⟨c, l⟩ := s
  cases hrule with
  | push => exact .push rfl
  | errno => exact .same (SameHolding.refl c) (by simp) (by simp) (by simp)
  | running => exact .same (SameHolding.refl c) (by simp) (by simp) (by simp)
  | idle hempty => exact .same (SameHolding.refl c) (fun _ => hempty) (by simp) (by simp)
  | pop hpop =>
    obtain ⟨hqueue, hslot, -, -⟩ := popSolution_some hpop
    exact .pop hqueue hslot
  | send => exact .same (afterSend_same c _ _ _) (by simp) (by simp) (by simp)
  | recvLen => exact .same (afterRecvLen_same c _ _ _) (by simp) (by simp) (by simp)
  | recvBody => exact .same (afterRecvBody_same c _ _ _ _ _) (by simp) (by simp) (by simp)
  | post => exact .same (SameHolding.refl c) (by simp) (by simp) (by simp)
  | clear => exact .clear rfl

/-- No step changes which client this is or who is inside its mutex. -/
theorem loopStep_identity {s s' : Client × Locals} {ev : LoopEv} (h : loopStep s ev = some s') :
    s'.1.id = s.1.id ∧ s'.1.locked = s.1.locked := by
  have hrule := loopStep_rule h
  obtain ⟨c, l⟩ := s
  cases hrule with
  | pop hpop => exact (popSolution_some hpop).2.2
  | send => exact ⟨(afterSend_same c _ _ _).id, (afterSend_same c _ _ _).locked⟩
  | recvLen => exact ⟨(afterRecvLen_same c _ _ _).id, (afterRecvLen_same c _ _ _).locked⟩
  | recvBody =>
    exact ⟨(afterRecvBody_same c _ _ _ _ _).id, (afterRecvBody_same c _ _ _ _ _).locked⟩
  | _ => exact ⟨rfl, rfl⟩

end JudgeServer
