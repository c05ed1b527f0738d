import JudgeServer.Library.Run
import JudgeServer.Client.Stream

/-! Inbound framing. The packets that the loop acts on are compared, with the offsets
they are read from, with the frames the peer has sent: they are a prefix of these as
long as no receive timeout strikes inside a frame, and the loop never gets back in
step after one that does. -/

namespace JudgeServer

open Transition

def LoopEv.arrivals : LoopEv → List Arrival
  | .recvLen arrivals => arrivals
  | .recvBody arrivals _ => arrivals
  | _ => []

/-- All `recv` outcomes of a sequence of events. -/
def arrivalsOf (evs : List LoopEv) : List Arrival := evs.flatMap LoopEv.arrivals

def bytesOf (evs : List LoopEv) : List UInt8 := received (arrivalsOf evs)

/-- The positions in the stream at which a receive timeout strikes. -/
def timeoutsOf (evs : List LoopEv) : List ℕ := timeouts 0 (arrivalsOf evs)

/-- The packet the loop acts on at this step, if it completes one, with the offset of
its length field when the step starts at `pos`. -/
def actsOn (s : Client × Locals) (pos : ℕ) : LoopEv → Option (ℕ × List UInt8)
  | .recvBody arrivals _ =>
    match s.2.pc with
    | .recvBody n =>
      match recvAll n.toUInt32 arrivals with
      | some t => if t.ret = n.toNat then some (pos - 2, received arrivals) else none
      | none => none
    | _ => none
  | _ => none

/-- The packets the loop acts on, from a state in which `pos` bytes have been read. -/
def packets (s : Client × Locals) (pos : ℕ) : List LoopEv → List (ℕ × List UInt8)
  | [] => []
  | ev :: evs => (actsOn s pos ev).toList ++
      match loopStep s ev with
      | some s' => packets s' (pos + (received ev.arrivals).length) evs
      | none => []

/-- `recv` delivers some bytes or times out. -/
def Arrival.OnTime (a : Arrival) : Prop := (∃ bs, a = .data bs) ∨ a = .failed .EAGAIN

/-- The peer sends these frames, and `recv` delivers bytes of theirs or times out. -/
structure Delivers (fs : List Frame) (evs : List LoopEv) : Prop where
  bytes : bytesOf evs <+: stream fs
  timeout : ∀ a ∈ arrivalsOf evs, a.OnTime

/-- If this is the receive of a packet body, a timeout cuts it short. -/
def LoopEv.CutShort : LoopEv → Prop
  | .recvBody arrivals _ => .failed .EAGAIN ∈ arrivals
  | _ => True

theorem bytesOf_append (as bs : List LoopEv) : bytesOf (as ++ bs) = bytesOf as ++ bytesOf bs := by
  simp [bytesOf, arrivalsOf]

theorem bytesOf_single (ev : LoopEv) : bytesOf [ev] = received ev.arrivals := by
  simp [bytesOf, arrivalsOf]

theorem timeoutsOf_snoc (evs : List LoopEv) (ev : LoopEv) :
    timeoutsOf (evs ++ [ev]) = timeoutsOf evs ++ timeouts (bytesOf evs).length ev.arrivals := by
  simp [timeoutsOf, bytesOf, arrivalsOf, timeouts_append]

theorem timeoutsOf_append_mem {as bs : List LoopEv} {q : ℕ} (h : q ∈ timeoutsOf as) :
    q ∈ timeoutsOf (as ++ bs) := by
  simp only [timeoutsOf, arrivalsOf, List.flatMap_append, timeouts_append, List.mem_append]
  exact Or.inl h

theorem packets_append {s s' : Client × Locals} {as : List LoopEv} (h : Run loopStep s as s')
    (pos : ℕ) (bs : List LoopEv) :
    packets s pos (as ++ bs) = packets s pos as ++ packets s' (pos + (bytesOf as).length) bs := by
  induction as generalizing s pos with
  | nil =>
    obtain rfl := Run.nil_iff.1 h
    rfl
  | cons a as ih =>
    obtain ⟨t, hs, hr⟩ := Run.cons_iff.1 h
    have hbytes : bytesOf (a :: as) = received a.arrivals ++ bytesOf as := by
      simp [bytesOf, arrivalsOf]
    simp only [List.cons_append, packets, hs, ih hr, hbytes, List.length_append,
      List.append_assoc, Nat.add_assoc]

theorem packets_snoc {s s' : Client × Locals} {as : List LoopEv} (h : Run loopStep s as s')
    (pos : ℕ) (ev : LoopEv) :
    packets s pos (as ++ [ev]) =
      packets s pos as ++ (actsOn s' (pos + (bytesOf as).length) ev).toList := by
  rw [packets_append h]
  congr 1
  simp only [packets]
  split <;> simp

theorem Delivers.left {fs : List Frame} {as bs : List LoopEv} (h : Delivers fs (as ++ bs)) :
    Delivers fs as where
  bytes := by
    have hb := h.bytes
    rw [bytesOf_append] at hb
    exact (List.prefix_append _ _).trans hb
  timeout a ha := h.timeout a (by
    simp only [arrivalsOf, List.flatMap_append, List.mem_append] at ha ⊢
    exact Or.inl ha)

theorem not_closed {arrivals : List Arrival} (h : ∀ a ∈ arrivals, a.OnTime) :
    Arrival.closed ∉ arrivals := by
  intro hmem
  rcases h _ hmem with ⟨bs, hbs⟩ | hfail
  · cases hbs
  · cases hfail

theorem Delivers.stays_open {fs : List Frame} {evs : List LoopEv} {ev : LoopEv}
    (h : Delivers fs (evs ++ [ev])) : Arrival.closed ∉ ev.arrivals := by
  apply not_closed
  intro a ha
  apply h.timeout
  simp only [arrivalsOf, List.flatMap_append, List.mem_append]
  right
  simpa using ha

/-- What a step means for the stream: it reads nothing, it reads a whole length field,
it reads a whole body and acts on it, or a timeout ends it at the position reached. -/
inductive Reads (s : Client × Locals) (pos : ℕ) (ev : LoopEv) (s' : Client × Locals) : Prop
  | nothing (hbytes : received ev.arrivals = []) (htime : timeouts pos ev.arrivals = [])
      (hacts : actsOn s pos ev = none) (hkeep : ∀ n, s'.2.pc = .recvBody n ↔ s.2.pc = .recvBody n)
  | header (hbytes : (received ev.arrivals).length = 2) (htime : timeouts pos ev.arrivals = [])
      (hacts : actsOn s pos ev = none) (hfrom : s.2.pc = .recvLen)
      (hto : s'.2.pc = .recvBody (readBe16 (received ev.arrivals) 0))
  | body {n : UInt16} (hbytes : (received ev.arrivals).length = n.toNat)
      (htime : timeouts pos ev.arrivals = [])
      (hacts : actsOn s pos ev = some (pos - 2, received ev.arrivals))
      (hfrom : s.2.pc = .recvBody n) (hto : ∀ n, s'.2.pc ≠ .recvBody n)
  | timeout (htime : timeouts pos ev.arrivals = [pos + (received ev.arrivals).length])
      (hacts : actsOn s pos ev = none)
      (hfrom : (s.2.pc = .recvLen ∧ (received ev.arrivals).length < 2) ∨
        ∃ n, s.2.pc = .recvBody n ∧ (received ev.arrivals).length < n.toNat)
      (hto : ∀ n, s'.2.pc ≠ .recvBody n)

theorem decodePacket_pc (pkt beyond : List UInt8) (n : UInt16) :
    decodePacket pkt beyond ≠ .recvBody n := by
  unfold decodePacket
  split_ifs <;> simp

theorem loopStep_reads {s s' : Client × Locals} {ev : LoopEv} (h : loopStep s ev = some s')
    (hopen : Arrival.closed ∉ ev.arrivals) (pos : ℕ) : Reads s pos ev s' := by
  have hrule := loopStep_rule h
  obtain ⟨c, l⟩ := s
  cases hrule with
  | push => exact .nothing rfl rfl rfl (fun n => Iff.rfl)
  | errno => exact .nothing rfl rfl rfl (fun n => Iff.rfl)
  | @running e b => exact .nothing rfl rfl rfl (fun n => by cases b <;> simp)
  | idle => exact .nothing rfl rfl rfl (fun n => by simp)
  | pop => exact .nothing rfl rfl rfl (fun n => by simp)
  | @send e sln calls t hsend =>
    refine .nothing rfl rfl rfl (fun n => ?_)
    simp only [afterSend]
    split
    · simp
    · split_ifs <;> simp
  | @recvLen e arrivals t hrecv =>
    rcases recvAll_cases hrecv hopen pos with ⟨hret, hlen, htime⟩ | ⟨hret, hlen, htime⟩
    · refine .header hlen htime rfl rfl ?_
      have hpos : ¬ t.ret ≤ 0 := by
        rw [hret]
        decide
      simp only [afterRecvLen, if_neg hpos]
      rfl
    · refine .timeout htime rfl (Or.inl ⟨rfl, hlen⟩) (fun n => ?_)
      have hneg : t.ret ≤ 0 := by omega
      simp only [afterRecvLen, if_pos hneg]
      split_ifs <;> simp
  | @recvBody e n arrivals beyond t hrecv =>
    have hn : n.toUInt32.toNat = n.toNat := UInt16.toNat_toUInt32 n
    rcases recvAll_cases hrecv hopen pos with ⟨hret, hlen, htime⟩ | ⟨hret, hlen, htime⟩
    · rw [hn] at hret hlen
      refine .body hlen htime ?_ rfl (fun m => ?_)
      · simp only [actsOn, hrecv, hret, if_true]
        rfl
      · simp only [afterRecvBody, hret, ne_eq, not_true_eq_false, if_false]
        exact decodePacket_pc _ _ _
    · rw [hn] at hlen
      have hne : t.ret ≠ n.toNat := by omega
      refine .timeout htime ?_ (Or.inr ⟨n, rfl, hlen⟩) (fun m => ?_)
      · simp only [actsOn, hrecv, if_neg hne]
      · simp only [afterRecvBody, if_pos hne]
        simp
  | post => exact .nothing rfl rfl rfl (fun n => by simp)
  | clear => exact .nothing rfl rfl rfl (fun n => by simp)

/-- The receive of a body that is not cut short completes a packet. -/
theorem actsOn_eq_none_iff {s s' : Client × Locals} {ev : LoopEv} (h : loopStep s ev = some s')
    (htime : ∀ a ∈ ev.arrivals, a.OnTime) (pos : ℕ) : actsOn s pos ev = none ↔ ev.CutShort := by
  have hrule := loopStep_rule h
  obtain ⟨c, l⟩ := s
  cases hrule with
  | @recvBody e n arrivals beyond t hrecv =>
    have hn : n.toUInt32.toNat = n.toNat := UInt16.toNat_toUInt32 n
    rcases recvAll_cases hrecv (not_closed htime) pos with ⟨hret, -, hnil⟩ | ⟨hret, -, hlast⟩
    · rw [hn] at hret
      refine iff_of_false ?_ ((timeouts_eq_nil_iff pos arrivals).1 hnil .EAGAIN)
      simp [actsOn, hrecv, hret]
    · have hne : t.ret ≠ n.toNat := by omega
      refine iff_of_true (by simp only [actsOn, hrecv, if_neg hne]) ?_
      have hfail : ¬ ∀ e, Arrival.failed e ∉ arrivals := by
        rw [← timeouts_eq_nil_iff pos, hlast]
        exact List.cons_ne_nil _ _
      push Not at hfail
      obtain ⟨e, he⟩ := hfail
      rcases htime _ he with ⟨bs, hbs⟩ | heq
      · cases hbs
      · rwa [heq] at he
  | _ => exact iff_of_true rfl trivial

theorem packets_eq_nil_iff {s s' : Client × Locals} {evs : List LoopEv} (h : Run loopStep s evs s')
    (htime : ∀ a ∈ arrivalsOf evs, a.OnTime) (pos : ℕ) :
    packets s pos evs = [] ↔ ∀ ev ∈ evs, ev.CutShort := by
  induction evs generalizing s pos with
  | nil => simp [packets]
  | cons ev evs ih =>
    obtain ⟨t, hs, hr⟩ := Run.cons_iff.1 h
    have hev := actsOn_eq_none_iff hs
      (fun a ha => htime a (List.mem_append_left _ ha)) pos
    have hevs := ih hr (fun a ha => htime a (List.mem_append_right _ ha))
      (pos + (received ev.arrivals).length)
    simp only [packets, hs, List.append_eq_nil_iff, Option.toList_eq_nil_iff, hev, hevs,
      List.forall_mem_cons]

end JudgeServer
