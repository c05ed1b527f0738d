import JudgeServer.Server.ClientMemory
import JudgeServer.Server.Suitable

/-! Who waits for whom. A thread that drains a client may have to wait for the mutex of another
one, to which it appends; that one was still registered when it was chosen, so it was taken out
of the map later. Hence the thread that drains the client taken out last can always go on, and
somebody can as long as not all threads have come to their end. -/

namespace JudgeServer

open Transition

/-- The thread that takes the step; the other steps come from outside. -/
def Action.actor : Action → Option Who
  | .accept _ _ | .stop | .submit _ => none
  | .register t _ _ | .announce t _ _ _ | .loop t _ _ _ | .find t _ _ | .unlist t _ _
  | .unmap t _ _ | .lock t _ _ | .unslot t _ _ | .pop t _ _ _ _ | .finish t _ _ | .free t _ _ =>
    some (.worker t)
  | .lookup who _ | .noCompiler who _ _ | .choose who _ _ _ | .append who _ _ => some who
  | .initDb _ | .check | .lockDb | .query _ _ | .dispatch _ _ | .again | .closeDb => some .poll

/-- The thread that goes on by the step: a library call that leaves another value in `errno`
brings nobody on. -/
def Action.mover : Action → Option Who
  | .loop _ _ _ (.errno _) => none
  | a => a.actor

/-- The clients in the order in which they were taken out of `clients_map`. -/
def unmaps (as : List Action) : List ClientRef :=
  as.filterMap fun
    | .unmap _ _ c => some c
    | _ => none

/-- `later` is the order in which threads wait: the client that a thread appends to while it
drains another one was taken out of the map after this one, if at all. -/
structure AppendsLater (as : List Action) (s : Server) : Prop where
  gone : ∀ c ∈ unmaps as, c < s.nextClient ∧ c ∉ s.clientsMap
  out : ∀ t c, (s.workers t).disposes = some c → c ∈ unmaps as
  later : ∀ t c sln d, (s.workers t).inside = some c →
    s.calls (.worker t) = some ⟨sln, .append d⟩ → (unmaps as).idxOf c < (unmaps as).idxOf d

/-- The thread has no connection, has returned, or has read the opcode of an empty packet. -/
def WorkerPc.over : WorkerPc → Bool
  | .idle | .done => true
  | .loop _ l => l.pc = .ended ∨ l.pc = .fault
  | _ => false

/-- The thread is in the loop around `send_all`. -/
def WorkerPc.sends : WorkerPc → Bool
  | .loop _ ⟨.sending _, _⟩ => true
  | _ => false

namespace Server

/-- The thread has come to its end, or it sends. -/
def resting (s : Server) : Who → Bool
  | .poll => s.poll = .done
  | .worker t => (s.workers t).over || (s.workers t).sends

/-- The mutex that the next section of the loop needs is free; a send is left out. -/
def loopReady (s : Server) (me : ClientRef) : LoopPc → Prop
  | .process | .clearing => (s.clients me).locked = false
  | .posting _ _ _ => s.dbMutex = false
  | .sending _ | .ended | .fault => False
  | .top | .recvLen | .recvBody _ | .removing => True

def callReady (s : Server) : PushPc → Prop
  | .append c => (s.clients c).locked = false
  | _ => True

def workerReady (s : Server) : WorkerPc → Prop
  | .loop me l => s.loopReady me l.pc
  | .remove _ c .lock => (s.clients c).locked = false
  | .idle | .done => False
  | _ => True

def pollReady (s : Server) : PollPc → Prop
  | .sleep => s.dbMutex = false
  | .extract e => e.stmt.isSome
  | .done => False
  | _ => True

def placeReady (s : Server) : Who → Prop
  | .poll => s.pollReady s.poll
  | .worker t => s.workerReady (s.workers t)

/-- The thread has something to do other than a send, and no mutex keeps it from it. -/
def ready (s : Server) (who : Who) : Prop :=
  match s.calls who with
  | some call => s.callReady call.pc
  | none => s.placeReady who

end Server

variable {db : Table} {as : List Action} {s s' : Server} {a : Action}

theorem unmaps_snoc (a : Action) : unmaps (as ++ [a]) = unmaps as ++ unmaps [a] := by
  simp only [unmaps, List.filterMap_append]

theorem mem_unmaps_single {c : ClientRef} : c ∈ unmaps [a] ↔ ∃ t me, a = .unmap t me c := by
  cases a <;> simp [unmaps, eq_comm]

theorem disposes_of_inside {pc : WorkerPc} {c : ClientRef} (h : pc.inside = some c) :
    pc.disposes = some c :=
  disposes_of_unmapped (unmapped_of_inside h)

theorem inside_cases {pc : WorkerPc} {c : ClientRef} (h : pc.inside = some c) :
    (∃ me, pc = .remove me c .slot) ∨ ∃ me, pc = .remove me c .drain := by
  unfold WorkerPc.inside at h
  split at h
  · obtain rfl := Option.some.inj h
    exact Or.inl ⟨_, rfl⟩
  · obtain rfl := Option.some.inj h
    exact Or.inr ⟨_, rfl⟩
  · cases h

theorem appendsLater_init (db : Table) : AppendsLater [] (.init db) where
  gone := by simp [unmaps]
  out := by simp [Server.init, WorkerPc.disposes]
  later := by simp [Server.init]

namespace AppendsLater

variable (h : AppendsLater as s) (hs : s.step a = some s')

include h hs

theorem gone_step (hg : Guarded s) : ∀ c ∈ unmaps (as ++ [a]), c < s'.nextClient ∧ c ∉ s'.clientsMap := by
  intro c hc
  rw [unmaps_snoc, List.mem_append] at hc
  rcases hc with hold | hnew
  · obtain ⟨hlt, hmap⟩ := h.gone c hold
    refine ⟨hlt.trans_le (nextClient_step hs), fun hmem => ?_⟩
    rcases clientsMap_back hs hmem with hback | ⟨rfl, -⟩
    · exact hmap hback
    · exact lt_irrefl _ hlt
  · obtain ⟨t, me, rfl⟩ := mem_unmaps_single.1 hnew
    obtain ⟨hen, -⟩ := Server.step_some.1 hs
    have hknown := hg.removing t c (by rw [hen]; rfl)
    refine ⟨hknown.trans_le (nextClient_step hs), fun hmem => ?_⟩
    obtain ⟨-, rfl⟩ := Server.step_some.1 hs
    simpa using (List.mem_filter.1 hmem).2

theorem out_step (t : Tid) (c : ClientRef) (hc : (s'.workers t).disposes = some c) :
    c ∈ unmaps (as ++ [a]) := by
  rw [unmaps_snoc, List.mem_append]
  rcases disposes_back hs hc with hold | hunmap
  · exact Or.inl (h.out t c hold)
  · exact Or.inr (mem_unmaps_single.2 ⟨t, hunmap⟩)

theorem later_step (hg : Guarded s) (t : Tid) (c : ClientRef) (sln : Solution) (d : ClientRef)
    (hin : (s'.workers t).inside = some c) (hcall : s'.calls (.worker t) = some ⟨sln, .append d⟩) :
    (unmaps (as ++ [a])).idxOf c < (unmaps (as ++ [a])).idxOf d := by
  have hnew := appending_new hs hcall
  -- the thread was inside of the same client before
  have hbefore : (s.workers t).inside = some c := by
    have hsome : s.calls (.worker t) ≠ none := by
      rcases hnew with hold | ⟨k, hold, -⟩ <;> simp [hold]
    obtain ⟨c₀, hc₀⟩ := hg.calling t hsome
    rcases disposes_back hs (disposes_of_inside hin) with hold | ⟨me, rfl⟩
    · obtain rfl := Option.some.inj (hold.symm.trans (disposes_of_inside hc₀))
      exact hc₀
    · rw [(Server.step_some.1 hs).1] at hc₀
      cases hc₀
  have hmem : c ∈ unmaps as := h.out t c (disposes_of_inside hbefore)
  have hlt : (unmaps as).idxOf c < (unmaps as).idxOf d := by
    rcases hnew with hold | ⟨k, -, hchoose⟩
    · exact h.later t c sln d hbefore hold
    · have hd : d ∉ unmaps as := fun hd => (h.gone d hd).2 (chooseFrom_mem hchoose)
      rw [List.idxOf_of_notMem hd]
      exact List.idxOf_lt_length_of_mem hmem
  rw [unmaps_snoc, List.idxOf_append_of_mem hmem]
  by_cases hd : d ∈ unmaps as
  · rwa [List.idxOf_append_of_mem hd]
  · rw [List.idxOf_append_of_notMem hd]
    exact (List.idxOf_lt_length_of_mem hmem).trans_le (Nat.le_add_right _ _)

theorem step (hg : Guarded s) : AppendsLater (as ++ [a]) s' :=
  ⟨h.gone_step hs hg, h.out_step hs, h.later_step hs hg⟩

end AppendsLater

theorem reaches_appendsLater (h : Reaches db as s) : AppendsLater as s := by
  induction h with
  | nil => exact appendsLater_init db
  | snoc hr hs ih => exact ih.step hs (reaches_guarded hr)

/-- Inside of `db_mutex` there is always a query to be issued. -/
theorem extracting_asks (h : Reaches db as s) : ∀ e, s.poll = .extract e → e.stmt.isSome := by
  induction h with
  | nil => simp [Server.init]
  | @snoc as a s s' hr hs ih =>
    intro e hext
    rcases extract_step hs hext with ⟨e₀, ok, stmt, rfl, hstmt, rfl⟩ | rfl | ⟨hsame, -⟩
    · obtain ⟨hen, rfl⟩ := Server.step_some.1 hs
      obtain ⟨stmt', hstmt', heq⟩ := Server.next_query hen
      obtain rfl := Option.some.inj (hstmt.symm.trans hstmt')
      rw [heq] at hext
      generalize e₀.next (ok && s.conn = .open) (s.query stmt ok).db = e at hext ⊢
      cases e with
      | updates rows todo => cases todo <;> rfl
      | ret code rows =>
        simp only [Server.afterQuery] at hext
        split at hext <;> cases hext
      | _ => rfl
    · rfl
    · exact ih e hsame

namespace Server

theorem ready_call {w : Who} {call : PushCall} (hcall : s.calls w = some call) :
    s.ready w ↔ s.callReady call.pc := by
  rw [ready, hcall]

theorem ready_place {w : Who} (hcall : s.calls w = none) : s.ready w ↔ s.placeReady w := by
  rw [ready, hcall]

theorem able_of_enabled {w : Who} (a : Action) (hw : a.mover = some w) (hen : s.enabled a) :
    Able Server.step Action.mover s w :=
  ⟨a, hw, Option.isSome_iff_exists.2 ⟨_, step_some.2 ⟨hen, rfl⟩⟩⟩

theorem call_able {w : Who} {call : PushCall} (hcall : s.calls w = some call)
    (h : s.callReady call.pc) : Able Server.step Action.mover s w := by
  obtain ⟨sln, pc⟩ := call
  cases pc with
  | lookup => exact able_of_enabled (.lookup w sln) rfl hcall
  | noCompiler => exact able_of_enabled (.noCompiler w sln true) rfl hcall
  | choose k => exact able_of_enabled (.choose w sln k true) rfl hcall
  | append c => exact able_of_enabled (.append w sln c) rfl ⟨hcall, h⟩

theorem poll_able (hcall : s.calls .poll = none) (h : s.pollReady s.poll) :
    Able Server.step Action.mover s .poll := by
  cases hpoll : s.poll with
  | init => exact able_of_enabled (.initDb true) rfl hpoll
  | top => exact able_of_enabled .check rfl hpoll
  | sleep =>
    rw [hpoll] at h
    exact able_of_enabled .lockDb rfl ⟨hpoll, h⟩
  | extract e =>
    rw [hpoll] at h
    exact able_of_enabled (.query e true) rfl ⟨hpoll, h⟩
  | dispatch rest =>
    cases rest with
    | nil => exact able_of_enabled .again rfl ⟨hpoll, hcall⟩
    | cons sln rest => exact able_of_enabled (.dispatch sln rest) rfl ⟨hpoll, hcall⟩
  | close => exact able_of_enabled .closeDb rfl hpoll
  | done =>
    rw [hpoll] at h
    exact h.elim

theorem loop_able {t : Tid} {me : ClientRef} {l : Locals} (hpc : s.workers t = .loop me l)
    (h : s.loopReady me l.pc) : Able Server.step Action.mover s (.worker t) := by
  have able : ∀ ev, (Action.loop t me l ev).mover = some (.worker t) → s.admits me ev = true →
      (loopStep (s.clients me, l) ev).isSome → Able Server.step Action.mover s (.worker t) :=
    fun ev hw hadmits hsome => able_of_enabled (.loop t me l ev) hw ⟨hpc, hadmits, hsome⟩
  obtain ⟨pc, errno⟩ := l
  cases pc with
  | top => exact able (.running s.serverRunning) rfl (by simp [admits]) rfl
  | process =>
    have hfree : (s.clients me).locked = false := h
    refine able .process rfl (by rw [admits, hfree]; rfl) ?_
    cases hpop : (s.clients me).popSolution with
    | none => rw [loopStep_idle hpop, Option.isSome_some]
    | some popped => rw [loopStep_pop hpop, Option.isSome_some]
  | recvLen => exact able (.recvLen [.closed]) rfl rfl rfl
  | recvBody n =>
    -- without a body there is no call of recv
    by_cases hn : n.toUInt32 = 0
    · have hrecv : recvAll n.toUInt32 [] = some ⟨0, 0, none⟩ := by rw [hn]; rfl
      exact able (.recvBody [] []) rfl rfl (by rw [loopStep_recvBody hrecv, Option.isSome_some])
    · have hrecv : recvAll n.toUInt32 [.closed] = some ⟨0, 0, none⟩ := by
        simp [recvAll, transferAll, transferLoop, Arrival.call, hn]
      exact able (.recvBody [.closed] []) rfl rfl
        (by rw [loopStep_recvBody hrecv, Option.isSome_some])
  | posting id code test =>
    have hfree : s.dbMutex = false := h
    exact able (.post true) rfl (by rw [admits, hfree]; rfl) rfl
  | clearing =>
    have hfree : (s.clients me).locked = false := h
    exact able .clear rfl (by rw [admits, hfree]; rfl) rfl
  | removing => exact able_of_enabled (.find t me errno) rfl hpc
  | sending | ended | fault => exact h.elim

theorem worker_able {t : Tid} (hcall : s.calls (.worker t) = none)
    (h : s.workerReady (s.workers t)) : Able Server.step Action.mover s (.worker t) := by
  cases hpc : s.workers t with
  | register compilers => exact able_of_enabled (.register t compilers []) rfl hpc
  | announce me compilers => exact able_of_enabled (.announce t me compilers []) rfl hpc
  | loop me l =>
    rw [hpc] at h
    exact loop_able hpc h
  | remove me c pc =>
    cases pc with
    | lists => exact able_of_enabled (.unlist t me c) rfl hpc
    | map => exact able_of_enabled (.unmap t me c) rfl hpc
    | lock =>
      rw [hpc] at h
      exact able_of_enabled (.lock t me c) rfl ⟨hpc, h⟩
    | slot => exact able_of_enabled (.unslot t me c) rfl ⟨hpc, hcall⟩
    | drain =>
      cases hqueue : (s.clients c).solutionsQueue with
      | nil => exact able_of_enabled (.finish t me c) rfl ⟨hpc, hcall, hqueue⟩
      | cons sln rest => exact able_of_enabled (.pop t me c sln rest) rfl ⟨hpc, hcall, hqueue⟩
    | free => exact able_of_enabled (.free t me c) rfl hpc
  | idle | done =>
    rw [hpc] at h
    exact h.elim

/-- A thread that is ready can go on. -/
theorem ready_able {w : Who} (h : s.ready w) : Able Server.step Action.mover s w := by
  cases hcall : s.calls w with
  | some call => exact call_able hcall ((ready_call hcall).1 h)
  | none =>
    have hplace := (ready_place hcall).1 h
    cases w with
    | poll => exact poll_able hcall hplace
    | worker t => exact worker_able hcall hplace

/-- While a client is being drained, somebody who drains one is ready. -/
theorem ready_draining (hg : Guarded s) (h : AppendsLater as s) {c : ClientRef}
    (hc : (s.clients c).locked = true) : ∃ w, s.ready w := by
  -- from client to client along `later`, until one is free
  induction hleft : (unmaps as).length - (unmaps as).idxOf c using Nat.strong_induction_on
    generalizing c with
  | _ n ih =>
    obtain ⟨t, hin⟩ := (hg.locked_iff c).1 hc
    cases hcall : s.calls (.worker t) with
    | none =>
      refine ⟨.worker t, (ready_place hcall).2 ?_⟩
      rcases inside_cases hin with ⟨me, heq⟩ | ⟨me, heq⟩ <;>
      · rw [placeReady, heq]
        trivial
    | some call =>
      by_cases hready : s.callReady call.pc
      · exact ⟨.worker t, (ready_call hcall).2 hready⟩
      obtain ⟨sln, pc⟩ := call
      cases pc with
      | append d =>
        have hd : (s.clients d).locked = true := by simpa [callReady] using hready
        obtain ⟨u, hu⟩ := (hg.locked_iff d).1 hd
        have hlt := h.later t c sln d hin hcall
        have hlen := List.idxOf_lt_length_of_mem (h.out u d (disposes_of_inside hu))
        exact ih _ (by omega) hd rfl
      | lookup | noCompiler | choose => exact absurd trivial hready

/-- Where no mutex is held, a thread that has not come to its end is ready or sends. -/
theorem ready_unlocked (hasks : ∀ e, s.poll = .extract e → e.stmt.isSome)
    (hclients : ∀ c, (s.clients c).locked = false) (hmutex : s.dbMutex = false) {w : Who}
    (hw : s.resting w = false) : s.ready w := by
  cases hcall : s.calls w with
  | some call =>
    rw [ready_call hcall]
    cases call.pc with
    | append c => exact hclients c
    | lookup | noCompiler | choose => trivial
  | none =>
    rw [ready_place hcall]
    cases w with
    | poll =>
      rw [placeReady]
      cases hpoll : s.poll with
      | extract e => exact hasks e hpoll
      | sleep => exact hmutex
      | done => simp [resting, hpoll] at hw
      | init | top | dispatch | close => trivial
    | worker t =>
      rw [placeReady]
      rw [resting] at hw
      cases hpc : s.workers t with
      | loop me l =>
        rw [hpc] at hw
        obtain ⟨pc, errno⟩ := l
        cases pc with
        | process | clearing => exact hclients me
        | posting => exact hmutex
        | sending | ended | fault => simp [WorkerPc.over, WorkerPc.sends] at hw
        | top | recvLen | recvBody | removing => trivial
      | remove me c pc =>
        cases pc with
        | lock => exact hclients c
        | lists | map | slot | drain | free => trivial
      | idle | done => simp [hpc, WorkerPc.over] at hw
      | register | announce => trivial

/-- As long as some thread has neither come to its end nor sends, some thread is ready. -/
theorem exists_ready (h : Reaches db as s) {w : Who} (hw : s.resting w = false) :
    ∃ u, s.ready u := by
  have hg := reaches_guarded h
  have hp := reaches_polled h
  by_cases hlocked : ∃ c, (s.clients c).locked = true
  · obtain ⟨c, hc⟩ := hlocked
    exact ready_draining hg (reaches_appendsLater h) hc
  cases hmutex : s.dbMutex with
  | true =>
    obtain ⟨e, he⟩ := hp.mutex_iff.1 hmutex
    have hcall : s.calls .poll = none := by
      by_contra hne
      obtain ⟨rest, hrest⟩ := hp.dispatching hne
      rw [he] at hrest
      cases hrest
    refine ⟨.poll, (ready_place hcall).2 ?_⟩
    rw [placeReady, he]
    exact extracting_asks h e he
  | false =>
    have hclients : ∀ c, (s.clients c).locked = false := by simpa using hlocked
    exact ⟨w, ready_unlocked (extracting_asks h) hclients hmutex hw⟩

section Frame

variable (hmutex : s'.dbMutex = s.dbMutex)
  (hlocked : ∀ c, (s'.clients c).locked = (s.clients c).locked)

include hmutex hlocked

theorem loopReady_frame {me : ClientRef} {pc : LoopPc} (h : s.loopReady me pc) :
    s'.loopReady me pc := by
  cases pc with
  | process | clearing => exact (hlocked me).trans h
  | posting => exact hmutex.trans h
  | sending | ended | fault => exact h
  | top | recvLen | recvBody | removing => trivial

theorem workerReady_frame {pc : WorkerPc} (h : s.workerReady pc) : s'.workerReady pc := by
  cases pc with
  | loop me l => exact loopReady_frame hmutex hlocked h
  | remove me c pc =>
    cases pc with
    | lock => exact (hlocked c).trans h
    | lists | map | slot | drain | free => trivial
  | idle | done => exact h
  | register | announce => trivial

/-- What readiness depends on; the loop of a thread stays where it is, unless it sends. -/
theorem ready_frame (hcalls : s'.calls = s.calls) (hpoll : s'.poll = s.poll)
    (hworkers : ∀ t, s'.workers t = s.workers t ∨ ∃ me l l', s.workers t = .loop me l ∧
      s'.workers t = .loop me l' ∧ (l'.pc = l.pc ∨ ∃ sln, l.pc = .sending sln))
    {w : Who} (h : s.ready w) : s'.ready w := by
  cases hcall : s.calls w with
  | some call =>
    rw [ready_call hcall] at h
    rw [ready_call ((congrFun hcalls w).trans hcall)]
    obtain ⟨sln, pc⟩ := call
    cases pc with
    | append c => exact (hlocked c).trans h
    | lookup | noCompiler | choose => trivial
  | none =>
    rw [ready_place hcall] at h
    rw [ready_place ((congrFun hcalls w).trans hcall)]
    cases w with
    | poll =>
      rw [placeReady] at h ⊢
      rw [hpoll]
      cases hpc : s.poll with
      | sleep =>
        rw [hpc] at h
        exact hmutex.trans h
      | extract | done =>
        rw [hpc] at h
        exact h
      | init | top | dispatch | close => trivial
    | worker t =>
      rw [placeReady] at h ⊢
      rcases hworkers t with heq | ⟨me, l, l', heq, heq', hpc⟩
      · rw [heq]
        exact workerReady_frame hmutex hlocked h
      · rw [heq, workerReady] at h
        rw [heq', workerReady]
        rcases hpc with hsame | ⟨sln, hsend⟩
        · rw [hsame]
          exact loopReady_frame hmutex hlocked h
        · rw [hsend] at h
          exact h.elim

end Frame

/-- A thread that has come to its end takes no further step. -/
theorem over_unable (hg : Guarded s) {t : Tid} (h : (s.workers t).over = true) :
    ¬ Able Server.step Action.mover s (.worker t) := by
  rintro ⟨a, hw, hsome⟩
  obtain ⟨s', hs⟩ := Option.isSome_iff_exists.1 hsome
  have hen := (step_some.1 hs).1
  have hcall : s.calls (.worker t) = none := by
    refine hg.no_call ?_
    cases hpc : s.workers t <;> rw [hpc] at h <;> first | rfl | cases h
  cases a with
  | lookup | noCompiler | choose =>
    obtain rfl := Option.some.inj hw
    cases hcall.symm.trans hen
  | append =>
    obtain rfl := Option.some.inj hw
    cases hcall.symm.trans hen.1
  | register | announce | find | unlist | unmap | free =>
    obtain rfl := Who.worker.inj (Option.some.inj hw)
    rw [show s.workers _ = _ from hen] at h
    simp [WorkerPc.over] at h
  | lock | unslot | pop | finish =>
    obtain rfl := Who.worker.inj (Option.some.inj hw)
    rw [show s.workers _ = _ from hen.1] at h
    simp [WorkerPc.over] at h
  | loop u me l ev =>
    obtain ⟨hpc, hadmits, hstep⟩ := hen
    obtain ⟨x, hx⟩ := Option.isSome_iff_exists.1 hstep
    obtain ⟨pc, errno⟩ := l
    cases loopStep_rule hx with
    | push => cases hadmits
    | errno => cases hw
    | _ =>
      obtain rfl := Who.worker.inj (Option.some.inj hw)
      rw [hpc] at h
      simp [WorkerPc.over] at h
  | _ => cases hw

theorem done_unable (hp : Polled s) (h : s.poll = .done) :
    ¬ Able Server.step Action.mover s .poll := by
  rintro ⟨a, hw, hsome⟩
  obtain ⟨s', hs⟩ := Option.isSome_iff_exists.1 hsome
  have hen := (step_some.1 hs).1
  have hcall : s.calls .poll = none := by
    by_contra hne
    obtain ⟨rest, hrest⟩ := hp.dispatching hne
    rw [h] at hrest
    cases hrest
  cases a with
  | lookup | noCompiler | choose =>
    obtain rfl := Option.some.inj hw
    cases hcall.symm.trans hen
  | append =>
    obtain rfl := Option.some.inj hw
    cases hcall.symm.trans hen.1
  | initDb | check | closeDb => cases h.symm.trans hen
  | lockDb | query | dispatch | again => cases h.symm.trans hen.1
  | loop u me l ev => cases ev <;> cases hw
  | _ => cases hw

/-- At the end nobody goes on. -/
theorem ended_unable (h : Reaches db as s) (hpoll : s.poll = .done)
    (hover : ∀ t, (s.workers t).over = true) (w : Who) : ¬ Able Server.step Action.mover s w := by
  cases w with
  | poll => exact done_unable (reaches_polled h) hpoll
  | worker t => exact over_unable (reaches_guarded h) (hover t)

end Server

end JudgeServer
