import JudgeServer.Client.Outstanding

/-! `last_recv_delay` against the receive timeouts in a row. The counter is shared by all
solutions of a client, and only a timeout with nothing outstanding sets it back; so it
counts the silence on the current solution as long as every new count finds it at 0. -/

namespace JudgeServer

open Transition

def Client.waited (c : Client) : Client :=
  { c with lastRecvDelay := c.lastRecvDelay + RECV_TIMEOUT_SEC }

/-- How the loop goes on after the receive of a length field, `errno` being what it finds
there. -/
inductive RecvRule (c : Client) (errno : Errno) (bytes : List UInt8) (t : Transfer) :
    Client × Locals → Prop
  | hang (hret : t.ret ≤ 0) (htime : errno.isTimeout = true) (hslot : c.checkingSolution ≠ none)
      (hmax : RECV_MAX_TIMEOUT ≤ c.lastRecvDelay + RECV_TIMEOUT_SEC) :
      RecvRule c errno bytes t (c.waited, ⟨.removing, errno⟩)
  | wait (hret : t.ret ≤ 0) (htime : errno.isTimeout = true) (hslot : c.checkingSolution ≠ none)
      (hlt : c.lastRecvDelay + RECV_TIMEOUT_SEC < RECV_MAX_TIMEOUT) :
      RecvRule c errno bytes t (c.waited, ⟨.top, errno⟩)
  | idle (hret : t.ret ≤ 0) (htime : errno.isTimeout = true) (hslot : c.checkingSolution = none) :
      RecvRule c errno bytes t ({ c with lastRecvDelay := 0 }, ⟨.top, errno⟩)
  | reset (hret : t.ret ≤ 0) (herrno : errno = .ECONNRESET) :
      RecvRule c errno bytes t (c, ⟨.removing, errno⟩)
  | other (hret : t.ret ≤ 0) (htime : errno.isTimeout = false) (herrno : errno ≠ .ECONNRESET) :
      RecvRule c errno bytes t (c, ⟨.top, errno⟩)
  | header (hret : 0 < t.ret) :
      RecvRule c errno bytes t (c, ⟨.recvBody (readBe16 bytes 0), errno⟩)

theorem afterRecvLen_rule (c : Client) (l : Locals) (bytes : List UInt8) (t : Transfer) :
    RecvRule c (t.errno.getD l.errno) bytes t (afterRecvLen c l bytes t) := by
  simp only [afterRecvLen]
  split_ifs with hret htime hslot hmax hdelay herrno
  · exact .hang hret htime hslot hmax
  · exact .wait hret htime hslot (UInt16.not_le.1 hmax)
  · exact .idle hret htime (not_not.1 hslot)
  · have hzero : c.lastRecvDelay = 0 := by
      rw [← UInt16.toNat_inj]
      have hle := mt UInt16.lt_iff_toNat_lt.2 hdelay
      simpa using hle
    have hsame : { c with lastRecvDelay := 0 } = c := by
      rw [← hzero]
    have hidle : RecvRule c (t.errno.getD l.errno) bytes t _ :=
      .idle hret htime (not_not.1 hslot)
    rwa [hsame] at hidle
  · exact .reset hret herrno
  · exact .other hret (Bool.eq_false_iff.2 htime) herrno
  · exact .header (not_le.1 hret)

/-- The receive ends with a timeout. -/
def timedOut (arrivals : List Arrival) : Bool :=
  arrivals.any fun
    | .failed e => e.isTimeout
    | _ => false

/-- The receive timeouts in a row after a step, `n` being those before it. Receiving
something ends the count, and so does sending a solution. -/
def quiet (n : ℕ) (s : Client × Locals) : LoopEv → ℕ
  | .process => if s.1.solutionsQueue = [] then n else 0
  | .recvLen arrivals => if timedOut arrivals then n + 1 else 0
  | .recvBody arrivals _ => if timedOut arrivals then n + 1 else 0
  | _ => n

def silenceFrom (n : ℕ) (s : Client × Locals) : List LoopEv → ℕ
  | [] => n
  | ev :: evs =>
    match loopStep s ev with
    | none => n
    | some s' => silenceFrom (quiet n s ev) s' evs

/-- The receive timeouts in a row at the end of a run, since the last packet and since the
current solution was sent. -/
def silence (s₀ : Client × Locals) (evs : List LoopEv) : ℕ := silenceFrom 0 s₀ evs

/-- The step takes the branch "Client hang". -/
def Hangs (s : Client × Locals) : LoopEv → Prop
  | .recvLen arrivals => s.2.pc = .recvLen ∧ ∃ t, recvAll 2 arrivals = some t ∧ t.ret ≤ 0 ∧
      (t.errno.getD s.2.errno).isTimeout = true ∧ s.1.checkingSolution ≠ none ∧
      RECV_MAX_TIMEOUT ≤ s.1.lastRecvDelay + RECV_TIMEOUT_SEC
  | _ => False

/-- A client is dropped as hung only after enough timeouts in a row. -/
def HangsAfterSilence (s₀ : Client × Locals) (evs : List LoopEv) : Prop :=
  ∀ pre ev post s, evs = pre ++ ev :: post → Run loopStep s₀ pre s → Hangs s ev →
    (RECV_MAX_TIMEOUT / RECV_TIMEOUT_SEC).toNat ≤ silence s₀ (pre ++ [ev])

/-- The packet is complete and an answer. -/
def IsResult (s : Client × Locals) (arrivals : List Arrival) (beyond : List UInt8) : Prop :=
  ∃ n id code test, s.2.pc = .recvBody n ∧ (received arrivals).length = n.toNat ∧
    decodePacket (received arrivals) beyond = .posting id code test

/-- A solution is taken with `last_recv_delay` at 0. With one outstanding, so is every
receive that brings something other than an answer, or ends without a timeout, and such an
end is not mistaken for a timeout. -/
def CountsFromZero (s : Client × Locals) : LoopEv → Prop
  | .process => s.1.solutionsQueue ≠ [] → s.1.lastRecvDelay = 0
  | .recvLen arrivals => s.1.checkingSolution ≠ none →
      timedOut arrivals = true ∨ (received arrivals).length = 2 ∨
        s.1.lastRecvDelay = 0 ∧ (.closed ∈ arrivals → s.2.errno.isTimeout = false)
  | .recvBody arrivals beyond => s.1.checkingSolution ≠ none →
      IsResult s arrivals beyond ∨ s.1.lastRecvDelay = 0 ∨
        timedOut arrivals = true ∧ s.1.lastRecvDelay ≤ RECV_TIMEOUT_SEC
  | _ => True

/-- Whether the loop is waiting for an answer, or about to. -/
def LoopPc.Waiting : LoopPc → Prop
  | .top | .process | .sending _ | .recvLen => True
  | _ => False

/-- The delay counts the timeouts in a row. -/
def Counted (n : ℕ) (s : Client × Locals) : Prop :=
  s.2.pc.Waiting → s.1.checkingSolution ≠ none → s.1.lastRecvDelay.toNat ≤ 5 * n

/-- How `recv_all` can end. -/
inductive RecvEnds (arrivals : List Arrival) (n : ℕ) : Transfer → Prop
  | complete (hlen : (received arrivals).length = n) : RecvEnds arrivals n ⟨n, n, none⟩
  | closed {m : ℕ} (hlen : (received arrivals).length < n) (hmem : .closed ∈ arrivals) :
      RecvEnds arrivals n ⟨0, m, none⟩
  | failed {m : ℕ} {e : Errno} (hlen : (received arrivals).length < n)
      (hmem : .failed e ∈ arrivals) : RecvEnds arrivals n ⟨-1, m, some e⟩

theorem recvAll_ends {n : UInt32} {arrivals : List Arrival} {t : Transfer}
    (h : recvAll n arrivals = some t) : RecvEnds arrivals n.toNat t := by
  have hends := transferAll_ends h
  have hlength := received_length arrivals
  have hlast : ∀ call, (arrivals.map Arrival.call).getLast? = some call →
      ∃ a ∈ arrivals, a.call = call := by
    intro call hcall
    rw [List.getLast?_map] at hcall
    obtain ⟨a, ha, hcall⟩ := Option.map_eq_some_iff.1 hcall
    exact ⟨a, List.mem_of_getLast? ha, hcall⟩
  cases hends with
  | complete hsize => exact .complete (by omega)
  | closed hsize hn hclosed =>
    obtain ⟨a, ha, hcall⟩ := hlast _ hclosed
    cases a with
    | closed => exact .closed (by omega) ha
    | data | failed => cases hcall
  | failed hsize hn hfailed =>
    obtain ⟨a, ha, hcall⟩ := hlast _ hfailed
    cases a with
    | failed e =>
      cases hcall
      exact .failed (by omega) ha
    | data | closed => cases hcall

theorem timedOut_of_mem {arrivals : List Arrival} {e : Errno} (hmem : .failed e ∈ arrivals)
    (htime : e.isTimeout = true) : timedOut arrivals = true := by
  rw [timedOut, List.any_eq_true]
  exact ⟨_, hmem, htime⟩

/-- A receive that the loop takes for a timeout is one, unless 0 is returned. -/
theorem timedOut_of_errno {n : UInt32} {arrivals : List Arrival} {t : Transfer} {errno : Errno}
    (h : recvAll n arrivals = some t) (hlen : (received arrivals).length < n.toNat)
    (htime : (t.errno.getD errno).isTimeout = true) :
    timedOut arrivals = true ∨ .closed ∈ arrivals ∧ errno.isTimeout = true := by
  cases recvAll_ends h with
  | complete hall => exact absurd hall hlen.ne
  | closed _ hmem => exact Or.inr ⟨hmem, htime⟩
  | failed _ hmem => exact Or.inl (timedOut_of_mem hmem htime)

/-- Of a receive that returns nothing positive, the length field is not complete. -/
theorem short_of_ret {arrivals : List Arrival} {t : Transfer} (h : recvAll 2 arrivals = some t)
    (hret : t.ret ≤ 0) : (received arrivals).length < 2 := by
  cases recvAll_ends h with
  | complete => exact absurd hret (by decide)
  | closed hlen | failed hlen => exact hlen

/-- In the receive branches, a solution being outstanding: a timeout is counted, and what is
not one finds nothing counted. -/
theorem recvLen_counts {c : Client} {e : Errno} {arrivals : List Arrival} {t : Transfer}
    (hrecv : recvAll 2 arrivals = some t) (hret : t.ret ≤ 0)
    (hfresh : CountsFromZero (c, ⟨.recvLen, e⟩) (.recvLen arrivals))
    (hslot : c.checkingSolution ≠ none) :
    timedOut arrivals = true ∨
      c.lastRecvDelay = 0 ∧ (t.errno.getD e).isTimeout = false := by
  have hshort := short_of_ret hrecv hret
  rcases hfresh hslot with htimed | hlen | ⟨hzero, hclosed⟩
  · exact Or.inl htimed
  · exact absurd hlen hshort.ne
  · by_cases htime : (t.errno.getD e).isTimeout = true
    · rcases timedOut_of_errno hrecv hshort htime with htimed | ⟨hmem, hstale⟩
      · exact Or.inl htimed
      · simp [hclosed hmem] at hstale
    · exact Or.inr ⟨hzero, Bool.eq_false_iff.2 htime⟩

theorem counted_recvLen {c : Client} {e : Errno} {arrivals : List Arrival} {t : Transfer} {n : ℕ}
    (h : Counted n (c, ⟨.recvLen, e⟩)) (hrecv : recvAll 2 arrivals = some t)
    (hfresh : CountsFromZero (c, ⟨.recvLen, e⟩) (.recvLen arrivals)) :
    Counted (quiet n (c, ⟨.recvLen, e⟩) (.recvLen arrivals))
      (afterRecvLen c ⟨.recvLen, e⟩ (received arrivals) t) := by
  have hrule := afterRecvLen_rule c ⟨.recvLen, e⟩ (received arrivals) t
  have hcounts := fun hret => recvLen_counts hrecv hret hfresh
  have hold := h trivial
  generalize afterRecvLen c ⟨.recvLen, e⟩ (received arrivals) t = s' at hrule ⊢
  dsimp only at hrule
  intro hpc hslot
  unfold quiet
  cases hrule with
  | hang | reset | header => exact absurd hpc not_false
  | idle _ _ hnone => exact absurd hnone hslot
  | wait hret htime =>
    have hfive : RECV_TIMEOUT_SEC.toNat = 5 := rfl
    rcases hcounts hret hslot with htimed | ⟨-, hfalse⟩
    · have hle := hold hslot
      have hmod := Nat.mod_le (c.lastRecvDelay.toNat + 5) (2 ^ 16)
      simp only [Client.waited, htimed, if_true, UInt16.toNat_add, hfive] at hle hmod ⊢
      omega
    · simp [htime] at hfalse
  | other hret =>
    rcases hcounts hret hslot with htimed | ⟨hzero, -⟩
    · have hle := hold hslot
      simp only [htimed, if_true] at hle ⊢
      omega
    · simp [hzero]

theorem counted_recvBody {c : Client} {e : Errno} {resLen : UInt16} {arrivals : List Arrival}
    {beyond : List UInt8} {t : Transfer} {n : ℕ} (hrecv : recvAll resLen.toUInt32 arrivals = some t)
    (hfresh : CountsFromZero (c, ⟨.recvBody resLen, e⟩) (.recvBody arrivals beyond)) :
    Counted (quiet n (c, ⟨.recvBody resLen, e⟩) (.recvBody arrivals beyond))
      (afterRecvBody c ⟨.recvBody resLen, e⟩ resLen (received arrivals) beyond t) := by
  intro hpc hslot
  have hsame : (afterRecvBody c ⟨.recvBody resLen, e⟩ resLen (received arrivals) beyond t).1 = c := by
    unfold afterRecvBody
    dsimp only
    split <;> rfl
  rw [hsame] at hslot ⊢
  rcases hfresh hslot with ⟨m, id, code, test, hm, hlen, hresult⟩ | hzero | ⟨htimed, hle⟩
  · -- a complete answer leads to `post_result`
    obtain rfl := LoopPc.recvBody.inj hm
    have hret : t.ret = resLen.toNat := by
      cases recvAll_ends hrecv with
      | complete => simp
      | closed hlt | failed hlt =>
        rw [UInt16.toNat_toUInt32] at hlt
        exact absurd hlen hlt.ne
    simp [afterRecvBody, hret, hresult, LoopPc.Waiting] at hpc
  · dsimp only at hzero
    simp [hzero]
  · have hfive : RECV_TIMEOUT_SEC.toNat = 5 := rfl
    have hle := UInt16.le_iff_toNat_le.1 hle
    simp only [quiet, htimed, if_true]
    dsimp only at hle
    omega

theorem popSolution_delay {c c' : Client} {sln : Solution} (h : c.popSolution = some (sln, c')) :
    c'.lastRecvDelay = c.lastRecvDelay := by
  unfold Client.popSolution at h
  split at h
  · cases h
  · obtain ⟨-, rfl⟩ := Prod.mk.inj (Option.some.inj h)
    rfl

theorem afterSend_delay (c : Client) (l : Locals) (sln : Solution) (t : Transfer) :
    (afterSend c l sln t).1.lastRecvDelay = c.lastRecvDelay := by
  simp only [afterSend, sendRound]
  split_ifs <;> rfl

/-- Only the two receives and a new solution change the count. -/
theorem counted_step {s s' : Client × Locals} {ev : LoopEv} {n : ℕ} (h : Counted n s)
    (hfresh : CountsFromZero s ev) (hstep : loopStep s ev = some s') :
    Counted (quiet n s ev) s' := by
  have hrule := loopStep_rule hstep
  obtain ⟨c, l⟩ := s
  cases hrule with
  | push => exact h
  | errno => exact h
  | running => exact fun _ => h trivial
  | idle hempty =>
    have hquiet : quiet n (c, ⟨.process, ‹_›⟩) .process = n := if_pos hempty
    rw [hquiet]
    exact fun _ => h trivial
  | pop hpop =>
    have hqueue : c.solutionsQueue ≠ [] := by
      rw [(popSolution_some hpop).1]
      exact List.cons_ne_nil _ _
    have hzero : c.lastRecvDelay = 0 := hfresh hqueue
    intro _ _
    rw [popSolution_delay hpop, hzero]
    exact Nat.zero_le _
  | send =>
    intro _ hslot
    rw [(afterSend_same c _ _ _).slot] at hslot
    rw [afterSend_delay]
    exact h trivial hslot
  | recvLen hrecv => exact counted_recvLen h hrecv hfresh
  | recvBody hrecv => exact counted_recvBody hrecv hfresh
  | post => exact fun hpc => absurd hpc not_false
  | clear => exact fun _ hslot => absurd rfl hslot

theorem silenceFrom_append {s₀ s : Client × Locals} {as : List LoopEv} (n : ℕ)
    (h : Run loopStep s₀ as s) (bs : List LoopEv) :
    silenceFrom n s₀ (as ++ bs) = silenceFrom (silenceFrom n s₀ as) s bs := by
  induction as generalizing n s₀ with
  | nil =>
    obtain rfl := Run.nil_iff.1 h
    rfl
  | cons a as ih =>
    obtain ⟨t, hs, hr⟩ := Run.cons_iff.1 h
    simp only [List.cons_append, silenceFrom, hs, ih _ hr]

theorem silence_snoc {s₀ s s' : Client × Locals} {evs : List LoopEv} {ev : LoopEv}
    (h : Run loopStep s₀ evs s) (hstep : loopStep s ev = some s') :
    silence s₀ (evs ++ [ev]) = quiet (silence s₀ evs) s ev := by
  rw [silence, silenceFrom_append 0 h, silenceFrom, hstep]
  rfl

theorem counted_run {id : UInt32} {e : Errno} {evs : List LoopEv} {s : Client × Locals}
    (hrun : Run loopStep (loopStart id e) evs s)
    (hfresh : Along loopStep (loopStart id e) evs CountsFromZero) :
    Counted (silence (loopStart id e) evs) s := by
  induction hrun with
  | nil => exact fun _ hslot => absurd rfl hslot
  | snoc hr hs ih =>
    obtain ⟨hleft, hlast⟩ := (along_snoc hr).1 hfresh
    rw [silence_snoc hr hs]
    exact counted_step (ih hleft) hlast hs

/-- The branch that drops the client. -/
theorem hangs_step {s : Client × Locals} {ev : LoopEv} (h : Hangs s ev) :
    ∃ s', loopStep s ev = some s' ∧ s'.2.pc = .removing := by
  obtain ⟨c, pc, e⟩ := s
  cases ev with
  | recvLen arrivals =>
    obtain ⟨hpc, t, hrecv, hret, htime, hslot, hmax⟩ := h
    obtain rfl : pc = .recvLen := hpc
    refine ⟨_, loopStep_recvLen hrecv c e, ?_⟩
    dsimp only at htime hslot hmax
    simp [afterRecvLen, hret, htime, hslot, hmax]
  | _ => exact absurd h not_false

/-- In every run in which each count begins with `last_recv_delay` at 0, a client is dropped
as hung only after a full silent period on its current solution. -/
theorem hangs_after_silence (id : UInt32) (e : Errno) (evs : List LoopEv)
    (h : Along loopStep (loopStart id e) evs CountsFromZero) :
    HangsAfterSilence (loopStart id e) evs := by
  intro pre ev post s hevs hrun hhangs
  have hfresh : CountsFromZero s ev := h pre ev post s hevs hrun
  have hcounted := counted_run hrun (Along.left (hevs ▸ h))
  obtain ⟨s', hstep, -⟩ := hangs_step hhangs
  rw [silence_snoc hrun hstep]
  obtain ⟨c, pc, e'⟩ := s
  cases ev with
  | recvLen arrivals =>
    obtain ⟨hpc, t, hrecv, hret, htime, hslot, hmax⟩ := hhangs
    obtain rfl : pc = .recvLen := hpc
    have hdelay := hcounted trivial hslot
    have hmax := UInt16.le_iff_toNat_le.1 hmax
    have hfive : (RECV_MAX_TIMEOUT / RECV_TIMEOUT_SEC).toNat = 5 := rfl
    have hadd : RECV_TIMEOUT_SEC.toNat = 5 := rfl
    have hlimit : RECV_MAX_TIMEOUT.toNat = 25 := rfl
    rcases recvLen_counts hrecv hret hfresh hslot with htimed | ⟨-, hfalse⟩
    · rw [hfive, quiet, if_pos htimed]
      rw [UInt16.toNat_add, hadd, hlimit] at hmax
      have hmod := Nat.mod_le (c.lastRecvDelay.toNat + 5) (2 ^ 16)
      dsimp only at hdelay hmax
      omega
    · dsimp only at htime
      simp [htime] at hfalse
  | _ => exact absurd hhangs not_false

/-- A solution is sent, and `n` receives time out. -/
def silentEvents (n : ℕ) : List LoopEv :=
  [.push (sampleSolution 0 1), .running true, .process, .send [.moved 17]] ++
    (List.replicate n [.recvLen [.failed .EAGAIN], .running true, .process]).flatten

theorem hangs_after_silence_five :
    HangsAfterSilence (loopStart 1 (.other 0))
      (silentEvents 4 ++ [.recvLen [.failed .EAGAIN]]) := by
  refine hangs_after_silence 1 (.other 0) _ ?_
  refine (along_cons rfl).2 ⟨trivial, (along_cons rfl).2 ⟨trivial, ?_⟩⟩
  refine (along_cons rfl).2 ⟨fun _ => rfl, (along_cons rfl).2 ⟨trivial, ?_⟩⟩
  iterate 4
    refine (along_cons rfl).2 ⟨fun _ => Or.inl rfl, (along_cons rfl).2 ⟨trivial, ?_⟩⟩
    refine (along_cons rfl).2 ⟨fun hqueue => absurd rfl hqueue, ?_⟩
  exact (along_cons rfl).2 ⟨fun _ => Or.inl rfl, along_nil⟩

/-- The answer comes after four timeouts, and the next solution is sent at once. -/
def lateAnswer : List LoopEv :=
  silentEvents 4 ++
    [.recvLen [.data [0, 7]], .recvBody [.data [109, 0, 0, 0, 1, 0, 0]] [], .post true, .clear,
      .push (sampleSolution 1 2), .running true, .process, .send [.moved 17]]

/-- The first timeout on the new solution drops the client. -/
theorem hangs_early :
    (∃ s, Run loopStep (loopStart 1 (.other 0)) (lateAnswer ++ [.recvLen [.failed .EAGAIN]]) s ∧
      s.2.pc = .removing) ∧
    ¬ HangsAfterSilence (loopStart 1 (.other 0)) (lateAnswer ++ [.recvLen [.failed .EAGAIN]]) := by
  refine ⟨⟨_, Run.iff_foldlM.2 rfl, rfl⟩, fun h => ?_⟩
  have hsilence := h lateAnswer (.recvLen [.failed .EAGAIN]) [] _ rfl (Run.iff_foldlM.2 rfl)
    ⟨rfl, _, rfl, by decide, rfl, Option.some_ne_none _, by decide⟩
  exact absurd hsilence (by decide)

end JudgeServer
