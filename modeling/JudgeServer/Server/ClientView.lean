import JudgeServer.Client.Sending
import JudgeServer.Server.Accounting
import JudgeServer.Server.ClientMemory
import JudgeServer.Server.Durability

/-! A run of the server as one client sees it. Until a thread gets into the mutex of a
client to remove it, the steps of the client's own thread and the pushes of the others
make up a run of its loop: what holds of every run of the loop holds of every client of
the server. -/

namespace JudgeServer

open Transition

/-- The event that a step is for the loop of client `c`. -/
def Action.event (c : ClientRef) : Action → Option LoopEv
  | .loop _ me _ ev => if me = c then some ev else none
  | .append _ sln d => if d = c then some (.push sln) else none
  | _ => none

def eventsOf (c : ClientRef) (as : List Action) : List LoopEv := as.filterMap (Action.event c)

/-- What the steps of the thread of client `c` put out. -/
def Server.putsOut {β : Type*} (c : ClientRef) (out : Client × Locals → LoopEv → List β)
    (s : Server) : Action → List β
  | .loop _ me l ev => if me = c then out (s.clients me, l) ev else []
  | _ => []

/-- A condition on the steps of the thread of client `c`. -/
def Server.Meets (c : ClientRef) (ok : Client × Locals → LoopEv → Prop) (s : Server) : Action → Prop
  | .loop _ me l ev => me = c → ok (s.clients me, l) ev
  | _ => True

/-- Where the thread is, or will be, in the loop. -/
def WorkerPc.locals : WorkerPc → Option Locals
  | .announce _ _ => some ⟨.top, .other 0⟩
  | .loop _ l => some l
  | _ => none

/-- Nobody has entered the mutex of the client to remove it. -/
def Unremoved (c : ClientRef) (as : List Action) : Prop := ∀ t me, Action.lock t me c ∉ as

/-- The thread of client `c` stands at `l` in the loop. -/
def Server.Stands (s : Server) (c : ClientRef) (l : Locals) : Prop :=
  ∀ t l', (s.workers t).attached = some c → (s.workers t).locals = some l' → l' = l

variable {db : Table} {as : List Action} {s s' : Server} {a : Action} {c : ClientRef}

theorem event_client {ev : LoopEv} (h : a.event c = some ev) :
    s.client a = some c ∧ ∀ t compilers order, a ≠ .register t compilers order := by
  cases a with
  | loop t me l ev' =>
    simp only [Action.event, Option.ite_none_right_eq_some] at h
    obtain ⟨rfl, -⟩ := h
    exact ⟨rfl, by simp⟩
  | append who sln d =>
    simp only [Action.event, Option.ite_none_right_eq_some] at h
    obtain ⟨rfl, -⟩ := h
    exact ⟨rfl, by simp⟩
  | _ => cases h

theorem eventsOf_snoc (a : Action) : eventsOf c (as ++ [a]) = eventsOf c as ++ (a.event c).toList := by
  rw [eventsOf, List.filterMap_append, ← eventsOf]
  cases hev : a.event c <;> simp [hev]

/-- Nothing happens to a client before it is created. -/
theorem event_unborn (hr : Reaches db as s) (hen : s.enabled a) (hc : s.nextClient ≤ c) :
    a.event c = none := by
  by_contra hne
  obtain ⟨ev, hev⟩ := Option.ne_none_iff_exists'.1 hne
  have ht := reaches_tallied hr
  obtain ⟨hclient, hreg⟩ := event_client (s := s) hev
  rcases client_known ht.guarded ht.listed ht.unborn hen hclient with hlt | ⟨t, compilers, order, ha⟩
  · exact absurd (lt_of_lt_of_le hlt hc) (lt_irrefl c)
  · exact hreg t compilers order ha

theorem eventsOf_unborn (h : Reaches db as s) (hc : s.nextClient ≤ c) : eventsOf c as = [] := by
  induction h with
  | nil => rfl
  | snoc hr hs ih =>
    have hbefore := (nextClient_step hs).trans hc
    rw [eventsOf_snoc, ih hbefore, event_unborn hr (Server.step_some.1 hs).1 hbefore]
    rfl

/-- A thread that is about to free a client has just left its mutex, or was so before. -/
theorem freeing_step (hs : s.step a = some s') {t : Tid} {me : ClientRef}
    (h : s'.workers t = .remove me c .free) :
    s.workers t = .remove me c .free ∨ a = .finish t me c := by
  by_cases ht : Server.thread a = some t
  swap
  · rw [Server.workers_other hs ht] at h
    exact Or.inl h
  obtain ⟨hen, rfl⟩ := Server.step_some.1 hs
  cases a with
  | finish u me' d =>
    obtain rfl := Option.some.inj ht
    rw [Server.next, Server.setWorker_same] at h
    obtain ⟨rfl, rfl, -⟩ := WorkerPc.remove.inj h
    exact Or.inr rfl
  | loop u me' l ev =>
    obtain rfl := Option.some.inj ht
    obtain ⟨d, l', -, heq⟩ := Server.next_loop hen
    rw [heq, Server.setWorker_same] at h
    cases h
  | find u me' errno =>
    obtain rfl := Option.some.inj ht
    simp only [Server.next] at h
    split at h <;> simp [Server.setWorker] at h
  | lock u me' d =>
    obtain rfl := Option.some.inj ht
    simp only [Server.next] at h
    split at h <;> simp [Server.setWorker, Server.setCall, Server.setClient] at h
  | accept | register | announce | unlist | unmap | unslot | free =>
    obtain rfl := Option.some.inj ht
    simp [Server.next, Server.setWorker] at h
  | _ => cases ht

/-- Where a thread is in the loop it was before, or it has just come there. -/
theorem locals_step (hs : s.step a = some s') {t : Tid} {l : Locals}
    (hatt : (s'.workers t).attached = some c) (hl : (s'.workers t).locals = some l) :
    ((s.workers t).attached = some c ∧ (s.workers t).locals = some l) ∨
      (c = s.nextClient ∧ l = ⟨.top, .other 0⟩) ∨ ∃ l₀ ev, a = .loop t c l₀ ev := by
  by_cases ht : Server.thread a = some t
  swap
  · rw [Server.workers_other hs ht] at hatt hl
    exact Or.inl ⟨hatt, hl⟩
  rcases attached_step hs hatt with ⟨hold, -⟩ | ⟨rfl, compilers, order, rfl⟩
  · obtain ⟨hen, rfl⟩ := Server.step_some.1 hs
    cases a with
    | announce u me compilers mems =>
      obtain rfl := Option.some.inj ht
      simp only [Server.next, Function.update_self] at hl
      exact Or.inl ⟨hold, by rw [hen]; exact hl⟩
    | loop u me l₀ ev =>
      obtain rfl := Option.some.inj ht
      rw [hen.1] at hold
      obtain rfl := Option.some.inj hold
      exact Or.inr (Or.inr ⟨l₀, ev, rfl⟩)
    | register u compilers order =>
      obtain rfl := Option.some.inj ht
      rw [hen] at hold
      cases hold
    | accept u compilers | unlist u me d | unmap u me d | unslot u me d | finish u me d
    | free u me d =>
      obtain rfl := Option.some.inj ht
      simp [Server.next, Server.setWorker, WorkerPc.locals] at hl
    | find u me errno =>
      obtain rfl := Option.some.inj ht
      simp only [Server.next] at hl
      split at hl <;> simp [WorkerPc.locals] at hl
    | lock u me d =>
      obtain rfl := Option.some.inj ht
      simp only [Server.next] at hl
      split at hl <;> simp [Server.setCall, Server.setWorker, WorkerPc.locals] at hl
    | _ => cases ht
  · obtain ⟨-, rfl⟩ := Server.step_some.1 hs
    simp only [Server.next, Function.update_self, WorkerPc.locals, Option.some.injEq] at hl
    exact Or.inr (Or.inl ⟨rfl, hl.symm⟩)

theorem loopStep_push (c : Client) (l : Locals) (sln : Solution) :
    loopStep (c, l) (.push sln) = some (c.push sln, l) := by
  obtain ⟨pc, e⟩ := l
  cases pc <;> rfl

/-- A step as a client sees it: an event of its loop, or nothing at all. -/
theorem seen_step (hg : Guarded s) (ha : Attached s) (hs : s.step a = some s')
    (hc : c < s.nextClient) {l : Locals} (hl : s.Stands c l) (hfree : (s.clients c).locked = false)
    (hkept : ∀ t me, s.workers t ≠ .remove me c .free) (hlock : ∀ t me, a ≠ .lock t me c) :
    ∃ l', s'.Stands c l' ∧
      ((∃ ev, a.event c = some ev ∧ loopStep (s.clients c, l) ev = some (s'.clients c, l')) ∨
        a.event c = none ∧ s'.clients c = s.clients c ∧ l' = l) := by
  have hne : c ≠ s.nextClient := hc.ne
  by_cases hloop : ∃ t l₀ ev, a = .loop t c l₀ ev
  · obtain ⟨t, l₀, ev, rfl⟩ := hloop
    have hstep := hs
    obtain ⟨hen, rfl⟩ := Server.step_some.1 hs
    obtain ⟨d, l', hnext, heq⟩ := Server.next_loop hen
    obtain rfl := hl t l₀ (by rw [hen.1]; rfl) (by rw [hen.1]; rfl)
    refine ⟨l', fun u l'' hatt hlu => ?_, Or.inl ⟨ev, by simp [Action.event], ?_⟩⟩
    · rcases attached_step hstep hatt with ⟨hold, -⟩ | ⟨hnew, -⟩
      · obtain rfl := ha.alone u t c hold (by rw [hen.1]; rfl)
        rw [heq, Server.setWorker_same] at hlu
        exact (Option.some.inj hlu).symm
      · exact absurd hnew hne
    · rw [hnext, heq]
      exact congrArg some (Prod.ext (Server.setClient_same ..).symm rfl)
  · have hstands : s'.Stands c l := by
      intro t l' hatt hlt
      rcases locals_step hs hatt hlt with ⟨hold, hlold⟩ | ⟨hnew, -⟩ | ⟨l₀, ev, heq⟩
      · exact hl t l' hold hlold
      · exact absurd hnew hne
      · exact absurd ⟨t, l₀, ev, heq⟩ hloop
    refine ⟨l, hstands, ?_⟩
    by_cases hclient : s.client a = some c
    swap
    · refine Or.inr ⟨?_, Server.clients_other hs hclient, rfl⟩
      by_contra hev
      obtain ⟨ev, hev⟩ := Option.ne_none_iff_exists'.1 hev
      exact hclient (event_client hev).1
    -- the other steps that change a client: a push, and those inside of its mutex
    obtain ⟨hen, rfl⟩ := Server.step_some.1 hs
    cases a with
    | register t compilers order => exact absurd (Option.some.inj hclient).symm hne
    | loop t me l₀ ev =>
      obtain rfl := Option.some.inj hclient
      exact absurd ⟨t, l₀, ev, rfl⟩ hloop
    | append who sln d =>
      obtain rfl := Option.some.inj hclient
      refine Or.inl ⟨.push sln, if_pos rfl, ?_⟩
      have hnext : (s.next (.append who sln d)).clients d = (s.clients d).push sln :=
        Server.setClient_same ..
      rw [hnext]
      exact loopStep_push (s.clients d) l sln
    | lock t me d =>
      obtain rfl := Option.some.inj hclient
      exact absurd rfl (hlock t me)
    | unslot t me d | pop t me d | finish t me d =>
      obtain rfl := Option.some.inj hclient
      exact absurd (by rw [hen.1]; rfl) (hg.not_inside hfree t)
    | free t me d =>
      obtain rfl := Option.some.inj hclient
      exact absurd hen (hkept t me)
    | _ => cases hclient

/-- What a run is for one client. -/
structure SeenBy (c : ClientRef) (as : List Action) (s : Server) (l : Locals) : Prop where
  run : Run loopStep (loopStart (s.clients c).id (.other 0)) (eventsOf c as) (s.clients c, l)
  stands : s.Stands c l
  kept : ∀ t me, s.workers t ≠ .remove me c .free

theorem SeenBy.unlocked {l : Locals} (h : SeenBy c as s l) : (s.clients c).locked = false := by
  refine h.run.invariant (I := fun x => x.1.locked = false) rfl fun x ev y hx hs => ?_
  rw [(loopStep_identity hs).2]
  exact hx

/-- The client that has just been created. -/
theorem seenBy_created (hr : Reaches db as s) (hs : s.step a = some s') (hnew : s.nextClient ≤ c)
    (hc : c < s'.nextClient) : SeenBy c (as ++ [a]) s' ⟨.top, .other 0⟩ := by
  have ha := reaches_attached hr
  have hevents : eventsOf c (as ++ [a]) = [] := by
    rw [eventsOf_snoc, eventsOf_unborn hr hnew, event_unborn hr (Server.step_some.1 hs).1 hnew]
    rfl
  by_cases hreg : ∃ t compilers order, a = .register t compilers order
  swap
  · rw [nextClient_same hs fun t compilers order heq => hreg ⟨t, compilers, order, heq⟩] at hc
    exact absurd (lt_of_lt_of_le hc hnew) (lt_irrefl c)
  obtain ⟨t, compilers, order, rfl⟩ := hreg
  have hlocals := fun u l => locals_step (c := c) (t := u) (l := l) hs
  have hfreeing : ∀ u me, s'.workers u = .remove me c .free → _ := fun _ _ => freeing_step hs
  obtain ⟨-, rfl⟩ := Server.step_some.1 hs
  obtain rfl : c = s.nextClient := le_antisymm (Nat.lt_succ_iff.1 hc) hnew
  refine ⟨?_, fun u l hatt hl => ?_, fun u me hu => ?_⟩
  · rw [hevents, Run.nil_iff]
    simp [Server.next, loopStart, clientCreate]
  · rcases hlocals u l hatt hl with ⟨hold, -⟩ | ⟨-, rfl⟩ | ⟨l₀, ev, heq⟩
    · exact absurd hold (ha.fresh u)
    · rfl
    · cases heq
  · rcases hfreeing u me hu with hold | heq
    · exact lt_irrefl _ ((reaches_guarded hr).removing u _ (by rw [hold]; rfl))
    · cases heq

theorem SeenBy.step {l : Locals} (h : SeenBy c as s l) (hg : Guarded s) (ha : Attached s)
    (hs : s.step a = some s') (hc : c < s.nextClient) (hlock : ∀ t me, a ≠ .lock t me c) :
    ∃ l', SeenBy c (as ++ [a]) s' l' := by
  obtain ⟨l', hstands, hseen⟩ := seen_step hg ha hs hc h.stands h.unlocked h.kept hlock
  have hrun := h.run
  rw [← id_step hs hc] at hrun
  refine ⟨l', ?_, hstands, fun t me ht => ?_⟩
  swap
  · rcases freeing_step hs ht with hold | rfl
    · exact h.kept t me hold
    · exact hg.not_inside h.unlocked t (by rw [(Server.step_some.1 hs).1.1]; rfl)
  rw [eventsOf_snoc]
  rcases hseen with ⟨ev, hev, hnext⟩ | ⟨hev, hsame, rfl⟩
  · simpa [hev] using hrun.snoc hnext
  · simpa [hev, hsame] using hrun

theorem Unremoved.snoc_iff : Unremoved c (as ++ [a]) ↔ Unremoved c as ∧ ∀ t me, a ≠ .lock t me c := by
  simp only [Unremoved, List.mem_append, List.mem_singleton, not_or, forall_and, ne_comm]

theorem reaches_seenBy (h : Reaches db as s) (hc : c < s.nextClient) (hlock : Unremoved c as) :
    ∃ l, SeenBy c as s l := by
  induction h with
  | nil => simp [Server.init] at hc
  | snoc hr hs ih =>
    obtain ⟨hbefore, hthis⟩ := Unremoved.snoc_iff.1 hlock
    rcases Nat.lt_or_ge c _ with hold | hnew
    · obtain ⟨l, hl⟩ := ih hold hbefore
      exact hl.step (reaches_guarded hr) (reaches_attached hr) hs hold hthis
    · exact ⟨_, seenBy_created hr hs hnew hc⟩

theorem outputs_unborn {β : Type*} {out : Client × Locals → LoopEv → List β} (h : Reaches db as s)
    (hc : s.nextClient ≤ c) : outputs Server.step (Server.putsOut c out) (.init db) as = [] := by
  induction h with
  | nil => rfl
  | @snoc as a s s' hr hs ih =>
    have hbefore := (nextClient_step hs).trans hc
    have hnone := event_unborn hr (Server.step_some.1 hs).1 hbefore
    rw [outputs_snoc hr, ih hbefore, List.nil_append]
    cases a with
    | loop t me l ev =>
      simp only [Action.event, ite_eq_right_iff, reduceCtorEq, imp_false] at hnone
      exact if_neg hnone
    | _ => rfl

/-- What the thread of a client puts out over the run is what its loop puts out. -/
theorem outputs_seen {β : Type*} {out : Client × Locals → LoopEv → List β}
    (hpush : ∀ x sln, out x (.push sln) = []) (h : Reaches db as s) (hc : c < s.nextClient)
    (hlock : Unremoved c as) :
    outputs Server.step (Server.putsOut c out) (.init db) as =
      outputs loopStep out (loopStart (s.clients c).id (.other 0)) (eventsOf c as) := by
  induction h with
  | nil => simp [Server.init] at hc
  | @snoc as a s s' hr hs ih =>
    obtain ⟨hbefore, hthis⟩ := Unremoved.snoc_iff.1 hlock
    rcases Nat.lt_or_ge c s.nextClient with hold | hnew
    · obtain ⟨l, hl⟩ := reaches_seenBy hr hold hbefore
      rw [outputs_snoc hr, ih hold hbefore, eventsOf_snoc, id_step hs hold]
      obtain ⟨hen, -⟩ := Server.step_some.1 hs
      cases a with
      | loop t me l₀ ev =>
        by_cases hme : me = c
        · subst hme
          obtain rfl := hl.stands t l₀ (by rw [hen.1]; rfl) (by rw [hen.1]; rfl)
          simp only [Action.event, if_true, Option.toList_some, Server.putsOut]
          exact (outputs_snoc hl.run ev).symm
        · simp [Action.event, Server.putsOut, hme]
      | append who sln d =>
        by_cases hd : d = c
        · subst hd
          simp only [Action.event, if_true, Option.toList_some, Server.putsOut]
          rw [outputs_snoc hl.run, hpush]
        · simp [Action.event, Server.putsOut, hd]
      | _ => simp [Action.event, Server.putsOut]
    · have hnone := event_unborn hr (Server.step_some.1 hs).1 hnew
      rw [outputs_snoc hr, outputs_unborn hr hnew, eventsOf_snoc, eventsOf_unborn hr hnew, hnone]
      cases a with
      | loop t me l₀ ev =>
        simp only [Action.event, ite_eq_right_iff, reduceCtorEq, imp_false] at hnone
        exact if_neg hnone
      | _ => rfl

/-- What the steps of a client's thread meet, the events of its loop meet. -/
theorem along_seen {ok : Client × Locals → LoopEv → Prop} (hpush : ∀ x sln, ok x (.push sln))
    (h : Reaches db as s) (hc : c < s.nextClient) (hlock : Unremoved c as)
    (hok : Along Server.step (.init db) as (Server.Meets c ok)) :
    Along loopStep (loopStart (s.clients c).id (.other 0)) (eventsOf c as) ok := by
  induction h with
  | nil => simp [Server.init] at hc
  | @snoc as a s s' hr hs ih =>
    obtain ⟨hbefore, hthis⟩ := Unremoved.snoc_iff.1 hlock
    obtain ⟨hokBefore, hokThis⟩ := (along_snoc hr).1 hok
    rcases Nat.lt_or_ge c s.nextClient with hold | hnew
    · obtain ⟨l, hl⟩ := reaches_seenBy hr hold hbefore
      have halong := ih hold hbefore hokBefore
      rw [eventsOf_snoc, id_step hs hold]
      cases hev : a.event c with
      | none => simpa using halong
      | some ev =>
        rw [Option.toList_some, along_snoc hl.run]
        refine ⟨halong, ?_⟩
        obtain ⟨hen, -⟩ := Server.step_some.1 hs
        cases a with
        | loop t me l₀ ev' =>
          simp only [Action.event, Option.ite_none_right_eq_some] at hev
          obtain ⟨rfl, hev⟩ := hev
          obtain rfl := Option.some.inj hev
          obtain rfl := hl.stands t l₀ (by rw [hen.1]; rfl) (by rw [hen.1]; rfl)
          exact hokThis rfl
        | append who sln d =>
          simp only [Action.event, Option.ite_none_right_eq_some] at hev
          obtain ⟨rfl, hev⟩ := hev
          obtain rfl := Option.some.inj hev
          exact hpush _ sln
        | _ => cases hev
    · rw [eventsOf_snoc, eventsOf_unborn hr hnew, event_unborn hr (Server.step_some.1 hs).1 hnew]
      exact along_nil

/-- The bytes that the server has written to the socket of a client. -/
def writtenTo (db : Table) (c : ClientRef) (as : List Action) : List UInt8 :=
  outputs Server.step (Server.putsOut c accepts) (.init db) as

/-- What a client sees of a run is a run of its loop: it leads to the same client, to
where its thread is, and to the same bytes on its socket. -/
structure SeenAsLoop (db : Table) (c : ClientRef) (as : List Action) (s : Server) (l : Locals) :
    Prop where
  run : Run loopStep (loopStart (s.clients c).id (.other 0)) (eventsOf c as) (s.clients c, l)
  place : ∀ t l', s.workers t = .loop c l' → l' = l
  bytes : writtenTo db c as = wire (loopStart (s.clients c).id (.other 0)) (eventsOf c as)

/-- In every run, for every client that nobody has begun to drain. -/
theorem client_view (db : Table) (as : List Action) (s : Server) (c : ClientRef)
    (h : Reaches db as s) (hc : c < s.nextClient) (hlock : Unremoved c as) :
    ∃ l, SeenAsLoop db c as s l := by
  obtain ⟨l, hl⟩ := reaches_seenBy h hc hlock
  refine ⟨l, hl.run, fun t l' hw => ?_, ?_⟩
  · exact hl.stands t l' (by rw [hw]; rfl) (by rw [hw]; rfl)
  · exact outputs_seen (fun x sln => by simp [accepts]) h hc hlock

/-- The client is sent the solution of row 1 and answers with its result. -/
theorem client_view_judged : ∃ s, Reaches oneNewRow judgedRun s ∧
    (eventsOf 0 judgedRun).length = 7 ∧
      writtenTo oneNewRow 0 judgedRun = solutionPacket (decodeRow 0 (sampleRow 1)) ∧
        ∃ l, SeenAsLoop oneNewRow 0 judgedRun s l := by
  have hrun : Reaches oneNewRow judgedRun _ := Run.iff_foldlM.2 rfl
  refine ⟨_, hrun, rfl, rfl, client_view oneNewRow judgedRun _ 0 hrun (by decide) ?_⟩
  simp [Unremoved, judgedRun, joining, starting, extracting, pushing]

end JudgeServer
