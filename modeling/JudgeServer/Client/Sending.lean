import JudgeServer.Client.Outstanding

/-! What the socket accepts while `process_solutions` sends a packet. The retry loop
stands outside `transfer_all`: after a timeout it starts again at the first byte of
`send_pkt`, whatever `send` has taken before the timeout. -/

namespace JudgeServer

open Transition

/-- The bytes that the socket accepts at this step. -/
def accepts (s : Client × Locals) (ev : LoopEv) : List UInt8 :=
  match s.2.pc, ev with
  | .sending sln, .send calls =>
    match sendAll (UInt32.ofNat (totalLength sln)) calls with
    | some t => s.1.sendPkt.take t.moved
    | none => []
  | _, _ => []

/-- The bytes that the socket accepts over a run of the loop. -/
def wire (s : Client × Locals) (evs : List LoopEv) : List UInt8 := outputs loopStep accepts s evs

/-- The outcomes of the `send` calls. -/
def LoopEv.sends : LoopEv → List Call
  | .send calls => calls
  | _ => []

def sendsOf (evs : List LoopEv) : List Call := evs.flatMap LoopEv.sends

/-- The call has handed over bytes. -/
def Call.Accepted : Call → Prop
  | .moved _ => True
  | _ => False

/-- Once `send` has accepted bytes, no later `send` fails. -/
def NoFailureAfterBytes (calls : List Call) : Prop :=
  calls.Pairwise fun a b => a.Accepted → b.Accepted

/-- The events `evs` follow the begin of a call of `process_solutions` that takes `sln`
from the queue and returns 0. -/
structure ReturnsZero (c : Client) (e : Errno) (sln : Solution) (evs : List LoopEv)
    (s : Client × Locals) : Prop where
  run : Run loopStep (c, ⟨.process, e⟩) (.process :: evs) s
  head : c.solutionsQueue.head? = some sln
  once : LoopEv.process ∉ evs
  returned : s.2.pc = .recvLen

/-- What one round of the send loop does with the outcome of `send_all`. -/
theorem afterSend_cases (c : Client) (l : Locals) (sln : Solution) (t : Transfer) :
    (afterSend c l sln t).1.sendPkt = c.sendPkt ∧
      ((afterSend c l sln t).2.pc = .recvLen ∧ 0 < t.ret ∧ totalLength sln ≤ t.ret ∨
        (afterSend c l sln t).2.pc = .sending sln ∧ t.ret ≤ 0 ∨
        (afterSend c l sln t).2.pc = .removing) := by
  simp only [afterSend, sendRound]
  split_ifs with hret htime hmax hreset hshort <;>
    simp [CLI_SENDTIMEOUT, CLI_CONNERROR] <;> omega

/-- The bytes a transfer moves are those of its accepted calls. -/
theorem sendAll_moved {n : UInt32} {calls : List Call} {t : Transfer} (h : sendAll n calls = some t) :
    t.moved = (calls.map Call.size).sum := by
  cases transferAll_ends h with
  | complete hsize => exact hsize.symm
  | closed hsize => exact hsize.symm
  | failed hsize => exact hsize.symm

theorem sendAll_untouched_iff {n : UInt32} {calls : List Call} {t : Transfer}
    (h : sendAll n calls = some t) : t.moved = 0 ↔ ∀ c ∈ calls, ¬ c.Accepted := by
  rw [sendAll_moved h, List.sum_eq_zero_iff, List.forall_mem_map]
  refine forall₂_congr fun c hc => ?_
  cases c with
  | moved m => exact iff_of_false (transferLoop_pos h hc).ne' (fun hnot => hnot trivial)
  | _ => exact iff_of_true rfl id

/-- A transfer that does not complete ends with a call that fails. -/
theorem sendAll_ends {n : UInt32} {calls : List Call} {t : Transfer} (h : sendAll n calls = some t) :
    (t.ret = t.moved ∧ t.moved = n.toNat ∧ ∀ c ∈ calls, c.Accepted) ∨
      t.ret ≤ 0 ∧ ∃ before last, calls = before ++ [last] ∧ ¬ last.Accepted := by
  have hlast : ∀ last, calls.getLast? = some last → ¬ last.Accepted →
      ∃ before last, calls = before ++ [last] ∧ ¬ last.Accepted := by
    intro last hl hnot
    exact ⟨calls.dropLast, last, (List.dropLast_append_getLast? last hl).symm, hnot⟩
  cases transferAll_ends h with
  | complete hsize hall =>
    refine Or.inl ⟨rfl, rfl, fun c hc => ?_⟩
    obtain ⟨n, rfl⟩ := hall c hc
    trivial
  | closed hsize hn hl => exact Or.inr ⟨le_rfl, hlast _ hl id⟩
  | failed hsize hn hl => exact Or.inr ⟨by simp, hlast _ hl id⟩

/-- Outside the send loop nothing is sent, and only `process_solutions` gets there. -/
theorem silent_step {s s' : Client × Locals} {ev : LoopEv} (h : loopStep s ev = some s')
    (hpc : ∀ sln, s.2.pc ≠ .sending sln) (hev : ev ≠ .process) :
    (∀ sln, s'.2.pc ≠ .sending sln) ∧ accepts s ev = [] ∧ ev.sends = [] := by
  have hrule := loopStep_rule h
  obtain ⟨c, l⟩ := s
  cases hrule with
  | push => exact ⟨hpc, by simp [accepts], rfl⟩
  | errno => exact ⟨hpc, by simp [accepts], rfl⟩
  | @running e b => exact ⟨fun sln => by cases b <;> simp, rfl, rfl⟩
  | idle => exact absurd rfl hev
  | pop => exact absurd rfl hev
  | @send e sln => exact absurd rfl (hpc sln)
  | recvLen =>
    refine ⟨fun sln => ?_, rfl, rfl⟩
    simp only [afterRecvLen]
    split_ifs <;> simp
  | recvBody =>
    refine ⟨fun sln => ?_, rfl, rfl⟩
    simp only [afterRecvBody, decodePacket]
    split_ifs <;> simp
  | post => exact ⟨fun sln => by simp, rfl, rfl⟩
  | clear => exact ⟨fun sln => by simp, rfl, rfl⟩

theorem silent_run {s s' : Client × Locals} {evs : List LoopEv} (h : Run loopStep s evs s')
    (hpc : ∀ sln, s.2.pc ≠ .sending sln) (hevs : LoopEv.process ∉ evs) :
    wire s evs = [] ∧ sendsOf evs = [] := by
  induction evs generalizing s with
  | nil => exact ⟨rfl, rfl⟩
  | cons ev evs ih =>
    obtain ⟨t, hs, hr⟩ := Run.cons_iff.1 h
    rw [List.mem_cons, not_or] at hevs
    obtain ⟨hpc', hacc, hsends⟩ := silent_step hs hpc (Ne.symm hevs.1)
    obtain ⟨hwire, hrest⟩ := ih hr hpc' hevs.2
    refine ⟨?_, ?_⟩
    · rw [wire, outputs_cons hs, hacc]
      exact hwire
    · rw [sendsOf, List.flatMap_cons, hsends]
      exact hrest

theorem removing_run {s s' : Client × Locals} {evs : List LoopEv} (h : Run loopStep s evs s')
    (hpc : s.2.pc = .removing) : s'.2.pc = .removing := by
  apply h.invariant (I := fun s => s.2.pc = .removing) hpc
  intro s ev s' hpc hs
  have hrule := loopStep_rule hs
  obtain ⟨c, l⟩ := s
  cases hrule with
  | push => exact hpc
  | errno => exact hpc
  | _ => cases hpc

theorem popSolution_sendPkt {c c' : Client} {sln : Solution}
    (h : c.popSolution = some (sln, c')) : c'.sendPkt = solutionPacket sln := by
  unfold Client.popSolution at h
  split at h
  · cases h
  · obtain ⟨rfl, rfl⟩ := Prod.mk.inj (Option.some.inj h)
    rfl

/-- From inside the send loop to its return with 0: the whole packet is sent last, and
nothing before it exactly when no failure follows accepted bytes. -/
theorem sending_run {c : Client} {e : Errno} {sln : Solution} {evs : List LoopEv}
    {s : Client × Locals} (hrun : Run loopStep (c, ⟨.sending sln, e⟩) evs s)
    (hpkt : c.sendPkt = solutionPacket sln) (honce : LoopEv.process ∉ evs)
    (hret : s.2.pc = .recvLen) :
    solutionPacket sln <:+ wire (c, ⟨.sending sln, e⟩) evs ∧
      (wire (c, ⟨.sending sln, e⟩) evs = solutionPacket sln ↔
        NoFailureAfterBytes (sendsOf evs)) := by
  induction evs generalizing c e with
  | nil =>
    obtain rfl := Run.nil_iff.1 hrun
    cases hret
  | cons ev evs ih =>
    obtain ⟨t, hs, hr⟩ := Run.cons_iff.1 hrun
    rw [List.mem_cons, not_or] at honce
    have hrule := loopStep_rule hs
    rw [wire, outputs_cons hs]
    cases hrule with
    | push => exact ih hr hpkt honce.2
    | errno => exact ih hr hpkt honce.2
    | @send e _ calls tr hsend =>
      have hout : accepts (c, ⟨.sending sln, e⟩) (.send calls) = (solutionPacket sln).take tr.moved := by
        simp only [accepts, hsend, hpkt]
      have hcalls : sendsOf (.send calls :: evs) = calls ++ sendsOf evs := rfl
      rw [hout, hcalls]
      have hcases := afterSend_cases c ⟨.sending sln, e⟩ sln tr
      dsimp only at hr ⊢
      generalize afterSend c ⟨.sending sln, e⟩ sln tr = next at hcases hr ⊢
      obtain ⟨c', pc', e'⟩ := next
      obtain ⟨hkeep, ⟨rfl, hpos, hwhole⟩ | ⟨rfl, hfail⟩ | rfl⟩ := hcases
      · -- `send_all` has sent the packet, and nothing is sent after it
        obtain ⟨hwire, hsends⟩ := silent_run hr (by simp) honce.2
        rw [wire] at hwire
        rcases sendAll_ends hsend with ⟨htret, -, hall⟩ | ⟨hneg, -⟩
        · have hlen := solutionPacket_length_le sln
          rw [hwire, hsends, List.append_nil, List.append_nil, List.take_of_length_le (by omega)]
          refine ⟨List.suffix_refl _, iff_of_true rfl ?_⟩
          exact List.pairwise_of_forall_mem_list fun a _ b hb _ => hall b hb
        · omega
      · -- it starts again at the first byte
        obtain ⟨hsuffix, hiff⟩ := ih hr (hkeep.trans hpkt) honce.2
        rw [wire] at hsuffix hiff
        refine ⟨hsuffix.trans (List.suffix_append _ _), ?_⟩
        rcases Nat.eq_zero_or_pos tr.moved with hzero | hpos
        · have hnone := (sendAll_untouched_iff hsend).1 hzero
          rw [hzero, List.take_zero, List.nil_append, hiff, NoFailureAfterBytes,
            NoFailureAfterBytes, List.pairwise_append]
          refine ⟨fun h => ⟨?_, h, fun a ha _ _ hacc => absurd hacc (hnone a ha)⟩, fun h => h.2.1⟩
          exact List.pairwise_of_forall_mem_list fun a ha _ _ hacc => absurd hacc (hnone a ha)
        · refine iff_of_false (fun heq => ?_) (fun hpair => ?_)
          · have hlen := congrArg List.length heq
            have hle := hsuffix.length_le
            have hpacket := List.length_pos_of_ne_nil (solutionPacket_ne_nil sln)
            rw [List.length_append, List.length_take] at hlen
            omega
          · rcases sendAll_ends hsend with ⟨hall, -⟩ | ⟨-, before, last, rfl, hlast⟩
            · omega
            obtain ⟨a, ha, hacc⟩ : ∃ a ∈ before ++ [last], a.Accepted := by
              by_contra hno
              push Not at hno
              exact hpos.ne' ((sendAll_untouched_iff hsend).2 hno)
            have hbefore : a ∈ before := by
              rcases List.mem_append.1 ha with ha | ha
              · exact ha
              · obtain rfl := List.mem_singleton.1 ha
                exact absurd hacc hlast
            have hpre := (List.pairwise_append.1 (List.pairwise_append.1 hpair).1).2.2
            exact hlast (hpre a hbefore last (List.mem_singleton_self _) hacc)
      · exfalso
        rw [removing_run hr rfl] at hret
        cases hret

/-- A call of `process_solutions` that returns 0 puts one copy of the packet on the wire
exactly when in it no `send` fails after one that has accepted bytes. -/
theorem sent_once_iff (c : Client) (e : Errno) (sln : Solution) (evs : List LoopEv)
    (s : Client × Locals) (h : ReturnsZero c e sln evs s) :
    wire (c, ⟨.process, e⟩) (.process :: evs) = solutionPacket sln ↔
      NoFailureAfterBytes (sendsOf evs) := by
  obtain ⟨t, hs, hr⟩ := Run.cons_iff.1 h.run
  rw [wire, outputs_cons hs]
  have hhead := h.head
  have hrule := loopStep_rule hs
  cases hrule with
  | idle hempty =>
    rw [hempty] at hhead
    cases hhead
  | @pop e x c' hpop =>
    obtain ⟨hqueue, -⟩ := popSolution_some hpop
    rw [hqueue] at hhead
    obtain rfl := Option.some.inj hhead
    exact (sending_run hr (popSolution_sendPkt hpop) h.once h.returned).2

/-- A client with solution 1 in its queue. -/
def queuedClient : Client := (clientCreate 1).push (sampleSolution 0 1)

/-- The first `send` times out, the second one takes the packet in two pieces. -/
def retriedSends : List LoopEv := [.send [.failed .EAGAIN], .send [.moved 7, .moved 10]]

theorem sent_once_retried :
    ∃ s, ReturnsZero queuedClient (.other 0) (sampleSolution 0 1) retriedSends s ∧
      (wire (queuedClient, ⟨.process, .other 0⟩) (.process :: retriedSends) =
          solutionPacket (sampleSolution 0 1) ↔
        NoFailureAfterBytes (sendsOf retriedSends)) := by
  have hcall : ReturnsZero queuedClient (.other 0) (sampleSolution 0 1) retriedSends _ :=
    ⟨Run.iff_foldlM.2 rfl, rfl, by decide, rfl⟩
  exact ⟨_, hcall, sent_once_iff _ _ _ _ _ hcall⟩

/-- Five bytes are accepted, then `send` times out: the peer gets them twice. -/
theorem sent_twice :
    ∃ s, ReturnsZero queuedClient (.other 0) (sampleSolution 0 1)
        [.send [.moved 5, .failed .EAGAIN], .send [.moved 17]] s ∧
      wire (queuedClient, ⟨.process, .other 0⟩)
          [.process, .send [.moved 5, .failed .EAGAIN], .send [.moved 17]] =
        (solutionPacket (sampleSolution 0 1)).take 5 ++ solutionPacket (sampleSolution 0 1) ∧
      (solutionPacket (sampleSolution 0 1)).take 5 ++ solutionPacket (sampleSolution 0 1) ≠
        solutionPacket (sampleSolution 0 1) :=
  ⟨_, ⟨Run.iff_foldlM.2 rfl, rfl, by decide, rfl⟩, rfl, by decide⟩

/-! The stream over a whole run of the loop. -/

/-- The solution that `process_solutions` takes at this step. -/
def takes (s : Client × Locals) (ev : LoopEv) : List Solution :=
  match ev, s.1.solutionsQueue with
  | .process, sln :: _ => [sln]
  | _, _ => []

def taken (s : Client × Locals) (evs : List LoopEv) : List Solution :=
  outputs loopStep takes s evs

/-- A round of the send loop that has handed over bytes is the last one of its call. -/
def LastIfAccepted (s : Client × Locals) (ev : LoopEv) : Prop :=
  (∃ a ∈ ev.sends, a.Accepted) → ∀ s' sln, loopStep s ev = some s' → s'.2.pc ≠ .sending sln

/-- The packets of the solutions taken so far, but the one in the send loop. -/
def WholeSoFar (s : Client × Locals) (ts : List Solution) (bytes : List UInt8) : Prop :=
  match s.2.pc with
  | .sending sln => s.1.sendPkt = solutionPacket sln ∧
      ∃ before, ts = before ++ [sln] ∧ bytes = before.flatMap solutionPacket
  | .removing => True
  | _ => bytes = ts.flatMap solutionPacket

theorem wholeSoFar_step {s s' : Client × Locals} {ev : LoopEv} {ts : List Solution}
    {bytes : List UInt8} (h : loopStep s ev = some s') (hlast : LastIfAccepted s ev)
    (hw : WholeSoFar s ts bytes) : WholeSoFar s' (ts ++ takes s ev) (bytes ++ accepts s ev) := by
  have hrule := loopStep_rule h
  obtain ⟨c, l⟩ := s
  cases hrule with
  | @push l sln =>
    have hquiet : takes (c, l) (.push sln) = [] ∧ accepts (c, l) (.push sln) = [] :=
      ⟨rfl, by simp [accepts]⟩
    rw [hquiet.1, hquiet.2, List.append_nil, List.append_nil]
    exact hw
  | @errno pc e e' =>
    have hquiet : accepts (c, ⟨pc, e⟩) (.errno e') = [] := by simp [accepts]
    rw [hquiet, List.append_nil]
    simpa [takes, WholeSoFar] using hw
  | @running e b =>
    cases b <;> simpa [takes, accepts, WholeSoFar] using hw
  | idle hempty =>
    have hempty : c.solutionsQueue = [] := hempty
    simpa [takes, accepts, WholeSoFar, hempty] using hw
  | @pop e sln c' hpop =>
    have hqueue : c.solutionsQueue = sln :: c'.solutionsQueue := (popSolution_some hpop).1
    simp only [takes, hqueue, accepts, List.append_nil]
    exact ⟨popSolution_sendPkt hpop, ts, rfl, hw⟩
  | @send e sln calls t hsend =>
    obtain ⟨hpkt, before, rfl, rfl⟩ := hw
    have hpkt : c.sendPkt = solutionPacket sln := hpkt
    have hcases := afterSend_cases c ⟨.sending sln, e⟩ sln t
    have hagain : (∃ a ∈ calls, a.Accepted) →
        (afterSend c ⟨.sending sln, e⟩ sln t).2.pc ≠ .sending sln :=
      fun hacc => hlast hacc _ sln h
    simp only [takes, accepts, hsend, hpkt, List.append_nil]
    generalize afterSend c ⟨.sending sln, e⟩ sln t = next at hcases hagain ⊢
    obtain ⟨c', pc', e'⟩ := next
    obtain ⟨hkeep, ⟨rfl, hpos, hwhole⟩ | ⟨rfl, hfail⟩ | rfl⟩ := hcases
    · rcases sendAll_ends hsend with ⟨hret, -⟩ | ⟨hneg, -⟩
      · have hlen := solutionPacket_length_le sln
        rw [List.take_of_length_le (by omega)]
        simp [WholeSoFar]
      · omega
    · have hzero : t.moved = 0 := by
        rw [sendAll_untouched_iff hsend]
        exact fun a ha hacc => hagain ⟨a, ha, hacc⟩ rfl
      rw [hzero, List.take_zero, List.append_nil]
      exact ⟨hkeep.trans hpkt, before, rfl, rfl⟩
    · trivial
  | @recvLen e arrivals t hrecv =>
    have hw : bytes = ts.flatMap solutionPacket := hw
    simp only [takes, accepts, List.append_nil, afterRecvLen]
    split_ifs <;> trivial
  | @recvBody e n arrivals beyond t hrecv =>
    have hw : bytes = ts.flatMap solutionPacket := hw
    simp only [takes, accepts, List.append_nil, afterRecvBody, decodePacket]
    split_ifs <;> exact hw
  | post => simpa [takes, accepts, WholeSoFar] using hw
  | clear => simpa [takes, accepts, WholeSoFar] using hw

/-- The peer's stream is then a concatenation of whole packets, those of the solutions
taken in their order, whenever no packet is being sent. -/
theorem stream_whole {id : UInt32} {e : Errno} {evs : List LoopEv} {s : Client × Locals}
    (hrun : Run loopStep (loopStart id e) evs s)
    (hlast : Along loopStep (loopStart id e) evs LastIfAccepted) :
    WholeSoFar s (taken (loopStart id e) evs) (wire (loopStart id e) evs) := by
  induction hrun with
  | nil => rfl
  | @snoc evs ev s s' hr hs ih =>
    obtain ⟨hlast, hev⟩ := (along_snoc hr).1 hlast
    rw [taken, wire, outputs_snoc hr, outputs_snoc hr]
    exact wholeSoFar_step hs hev (ih hlast)

/-- The solutions that other threads push at this event. -/
def LoopEv.pushes : LoopEv → List Solution
  | .push sln => [sln]
  | _ => []

def pushesOf (evs : List LoopEv) : List Solution := evs.flatMap LoopEv.pushes

/-- The queue is first in, first out over the whole run. -/
theorem taken_queue {s s' : Client × Locals} {evs : List LoopEv} (hrun : Run loopStep s evs s') :
    taken s evs ++ s'.1.solutionsQueue = s.1.solutionsQueue ++ pushesOf evs := by
  induction hrun with
  | nil => simp [taken, outputs, pushesOf]
  | @snoc evs ev x y hr hs ih =>
    rw [taken, outputs_snoc hr, ← taken, pushesOf, List.flatMap_append, ← pushesOf,
      ← List.append_assoc, ← ih, List.append_assoc, List.append_assoc]
    congr 1
    cases loopStep_holding hs with
    | pop hqueue => simp [takes, hqueue, LoopEv.pushes]
    | clear heq => simp [takes, heq, LoopEv.pushes, Client.clearChecking]
    | push heq => simp [takes, heq, LoopEv.pushes, Client.push]
    | same hsame hproc hclear hpush =>
      have hnone : takes x ev = [] ∧ ev.pushes = [] := by
        cases ev with
        | process => simp [takes, hproc rfl, LoopEv.pushes]
        | push sln => exact absurd rfl (hpush sln)
        | _ => exact ⟨rfl, rfl⟩
      simp [hnone.1, hnone.2, hsame.queue]

/-- The packet in the send loop is that of a solution taken before. -/
def SendsTaken (s : Client × Locals) (ts : List Solution) : Prop :=
  ∀ sln, s.2.pc = .sending sln → s.1.sendPkt = solutionPacket sln ∧ sln ∈ ts

theorem sendsTaken_step {s s' : Client × Locals} {ev : LoopEv} {ts : List Solution}
    (h : loopStep s ev = some s') (hsends : SendsTaken s ts) :
    SendsTaken s' (ts ++ takes s ev) ∧
      (accepts s ev = [] ∨ ∃ sln ∈ ts, ∃ n, accepts s ev = (solutionPacket sln).take n) := by
  have hkeep : ∀ {sln}, s.2.pc = .sending sln → s.1.sendPkt = solutionPacket sln ∧
      sln ∈ ts ++ takes s ev := fun hpc => ⟨(hsends _ hpc).1, List.mem_append_left _ (hsends _ hpc).2⟩
  by_cases hsilent : (∀ sln, s.2.pc ≠ .sending sln) ∧ ev ≠ .process
  · obtain ⟨hstill, hnone, -⟩ := silent_step h hsilent.1 hsilent.2
    exact ⟨fun sln hpc => absurd hpc (hstill sln), Or.inl hnone⟩
  have hrule := loopStep_rule h
  obtain ⟨c, l⟩ := s
  cases hrule with
  | push => exact ⟨fun sln hpc => hkeep hpc, Or.inl (by simp [accepts])⟩
  | errno => exact ⟨fun sln hpc => hkeep hpc, Or.inl (by simp [accepts])⟩
  | idle => exact ⟨fun sln hpc => (nomatch hpc), Or.inl rfl⟩
  | @pop e sln c' hpop =>
    refine ⟨fun sln' hpc => ?_, Or.inl rfl⟩
    obtain rfl := LoopPc.sending.inj hpc
    have hqueue : c.solutionsQueue = sln :: c'.solutionsQueue := (popSolution_some hpop).1
    refine ⟨popSolution_sendPkt hpop, List.mem_append_right _ ?_⟩
    simp [takes, hqueue]
  | @send e sln calls t hsend =>
    obtain ⟨hpkt, hmem⟩ := hsends sln rfl
    obtain ⟨hsame, hcases⟩ := afterSend_cases c ⟨.sending sln, e⟩ sln t
    refine ⟨fun sln' hpc => ?_, Or.inr ⟨sln, hmem, t.moved, ?_⟩⟩
    · rcases hcases with ⟨hnext, -⟩ | ⟨hnext, -⟩ | hnext <;> rw [hnext] at hpc
      · cases hpc
      · obtain rfl := LoopPc.sending.inj hpc
        exact ⟨hsame.trans hpkt, List.mem_append_left _ hmem⟩
      · cases hpc
    · have hpkt : c.sendPkt = solutionPacket sln := hpkt
      simp only [accepts, hsend, hpkt]
  | running | recvLen | recvBody | post | clear => exact absurd ⟨by simp, by simp⟩ hsilent

/-- Whatever the socket does, it accepts beginnings of the packets of solutions that were
taken from the queue, one after the other. -/
theorem wire_pieces {id : UInt32} {e : Errno} {evs : List LoopEv} {s : Client × Locals}
    (hrun : Run loopStep (loopStart id e) evs s) :
    SendsTaken s (taken (loopStart id e) evs) ∧
      ∃ ps : List (Solution × ℕ), (∀ p ∈ ps, p.1 ∈ taken (loopStart id e) evs) ∧
        wire (loopStart id e) evs = ps.flatMap fun p => (solutionPacket p.1).take p.2 := by
  induction hrun with
  | nil => exact ⟨fun sln hpc => (nomatch hpc), [], by simp, rfl⟩
  | @snoc evs ev x y hr hs ih =>
    obtain ⟨hsends, ps, hps, hwire⟩ := ih
    obtain ⟨hstill, hpiece⟩ := sendsTaken_step hs hsends
    rw [taken, outputs_snoc hr, ← taken, wire, outputs_snoc hr, ← wire, hwire]
    refine ⟨hstill, ?_⟩
    rcases hpiece with hnone | ⟨sln, hsln, n, hpiece⟩
    · exact ⟨ps, fun p hp => List.mem_append_left _ (hps p hp), by rw [hnone, List.append_nil]⟩
    · refine ⟨ps ++ [(sln, n)], fun p hp => List.mem_append_left _ ?_, by simp [hpiece]⟩
      rcases List.mem_append.1 hp with hp | hp
      · exact hps p hp
      · obtain rfl := List.mem_singleton.1 hp
        exact hsln

end JudgeServer
