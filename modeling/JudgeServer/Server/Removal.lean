import JudgeServer.Server.Connection
import JudgeServer.Server.Dispatch
import JudgeServer.Server.Lists

/-! A push and a removal. `push_solution` chooses a client under `clients_map_mutex` and
appends under the client's own mutex later; `remove_client` may unregister, drain and
free that client in between. A solution that is pushed stays accounted for as long as
no client is drained while the push of the solution is about to append to it. -/

namespace JudgeServer

open Transition

namespace Server

/-- `push_solution(sln)` is in progress. -/
def Pushing (s : Server) (sln : Solution) : Prop := ∃ who pc, s.calls who = some ⟨sln, pc⟩

/-- The solution is in the queue or in the checking slot of the client. -/
def Keeps (s : Server) (c : ClientRef) (sln : Solution) : Prop :=
  sln ∈ (s.clients c).solutionsQueue ∨ (s.clients c).checkingSolution = some sln

/-- A verdict or the FL result has been posted for the id. -/
def Answered (s : Server) (sln : Solution) : Prop :=
  ∃ q ∈ s.log, q.ok = true ∧ ∃ accepted text, q.stmt = .postResult sln.id accepted text

/-- What has become of a solution once nothing is under way for it. -/
def Settled (s : Server) (sln : Solution) : Prop :=
  (∃ c ∈ s.clientsMap, s.Keeps c sln) ∨ s.Answered sln

/-- The solution is settled once its push has completed and so has the removal of every
client that had it. -/
def NotLost (s : Server) (sln : Solution) : Prop :=
  ¬ s.Pushing sln → (∀ t c, (s.workers t).removes = some c → ¬ s.Keeps c sln) → s.Settled sln

end Server

/-- The solution is not appended to the queue of a client that has been removed from
`clients_map` and drained: it is in the map, or its removal has yet to drain it. -/
def AppendsUndrained (sln : Solution) (s : Server) : Action → Prop
  | .append _ x c => x = sln →
      c ∈ s.clientsMap ∨ ∃ t me, s.workers t = .remove me c .lock
  | _ => True

/-- No client is drained while the push of `sln` is about to append to it, the FL query
for `sln` succeeds, and the loop of a client does not drop `sln` from the slot, for the
next solution or after a result, before it is answered. -/
def HandsOver (sln : Solution) (s : Server) : Action → Prop
  | .lock _ _ c => ∀ who, s.calls who ≠ some ⟨sln, .append c⟩
  | .noCompiler _ x ok => x = sln → ok = true ∧ s.conn = .open
  | .choose _ x k ok => x = sln → s.chooseFrom k = none → ok = true ∧ s.conn = .open
  | .loop _ me _ .process => (s.clients me).solutionsQueue ≠ [] →
      (s.clients me).checkingSolution = some sln → s.Answered sln
  | .loop _ me _ .clear => (s.clients me).checkingSolution = some sln → s.Answered sln
  | _ => True

/-- The client is registered, or it is out of the map and not drained yet. -/
def Server.Live (s : Server) (c : ClientRef) : Prop :=
  c ∈ s.clientsMap ∨ ∃ t, (s.workers t).unmapped = some c

/-- What the drain of the client will find, or has not taken over yet. -/
def Server.Held (s : Server) (c : ClientRef) (sln : Solution) : Prop :=
  sln ∈ (s.clients c).solutionsQueue ∨
    (s.clients c).locked = false ∧ (s.clients c).checkingSolution = some sln

/-- Where a solution can be after its push has begun. -/
def Server.Accounted (s : Server) (sln : Solution) : Prop :=
  s.Pushing sln ∨ (∃ c, s.Live c ∧ s.Held c sln) ∨ s.Answered sln

/-- The push of `sln` is about to append to clients that will not be drained before. -/
def Server.Aimed (s : Server) (sln : Solution) : Prop :=
  ∀ who c, s.calls who = some ⟨sln, .append c⟩ →
    c ∈ s.clientsMap ∨ ∃ t me, s.workers t = .remove me c .lock

/-- The client whose mutex the thread has taken to drain it. -/
def WorkerPc.entered : WorkerPc → Option ClientRef
  | .remove _ c .slot | .remove _ c .drain | .remove _ c .free => some c
  | _ => none

/-- A client that has been drained is not given the solution any more, until it is freed
without it. With ids that clash a second thread may still be about to drain it. -/
structure Server.Drained (s : Server) (sln : Solution) : Prop where
  apart : ∀ t c, (s.workers t).entered = some c →
    c ∉ s.clientsMap ∧ ∀ who, s.calls who ≠ some ⟨sln, .append c⟩
  empty : ∀ t me c, s.workers t = .remove me c .free → ¬ s.Held c sln

/-- The step of a removal that leads to the place. -/
def RemovePc.After (t : Tid) (me c : ClientRef) (a : Action) : RemovePc → Prop
  | .lists => ∃ errno, a = .find t me errno
  | .map => a = .unlist t me c
  | .lock => a = .unmap t me c
  | .slot => a = .lock t me c
  | .drain => a = .lock t me c ∨ a = .unslot t me c
  | .free => a = .finish t me c

theorem answered_step {s s' : Server} {a : Action} {sln : Solution} (hs : s.step a = some s')
    (h : s.Answered sln) : s'.Answered sln := by
  obtain ⟨q, hq, hok⟩ := h
  refine ⟨q, ?_, hok⟩
  cases step_db hs with
  | quiet _ hlog => rwa [hlog]
  | asked _ _ hlog => rw [hlog]; exact List.mem_cons_of_mem _ hq
  | submitted _ _ _ hlog => rwa [hlog]
  | opened _ _ hlog => rwa [hlog]
  | closed _ hlog => rwa [hlog]

/-- The thread that has unmapped a client keeps at it until it has drained it. -/
theorem unmapped_step {s s' : Server} {a : Action} {t : Tid} {c : ClientRef}
    (hs : s.step a = some s') (h : (s.workers t).unmapped = some c)
    (hfin : ∀ me, a ≠ .finish t me c) : (s'.workers t).unmapped = some c := by
  by_cases ht : Server.thread a = some t
  swap
  · rwa [Server.workers_other hs ht]
  obtain ⟨hen, rfl⟩ := Server.step_some.1 hs
  -- the steps of a thread that has unmapped its client
  have hplace : ∀ {pc : WorkerPc}, s.workers t = pc → pc.unmapped = some c := by
    rintro pc rfl
    exact h
  cases a with
  | accept | register | announce | find | unlist | unmap | free =>
    obtain rfl := Option.some.inj ht
    cases hplace hen
  | loop u me l ev =>
    obtain rfl := Option.some.inj ht
    cases hplace hen.1
  | lock u me d =>
    obtain rfl := Option.some.inj ht
    obtain rfl := Option.some.inj (hplace hen.1)
    simp only [Server.next]
    split <;> simp [Server.setCall, Server.setWorker, WorkerPc.unmapped]
  | unslot u me d =>
    obtain rfl := Option.some.inj ht
    obtain rfl := Option.some.inj (hplace hen.1)
    simp [Server.next, WorkerPc.unmapped]
  | finish u me d =>
    obtain rfl := Option.some.inj ht
    obtain rfl := Option.some.inj (hplace hen.1)
    exact absurd rfl (hfin me)
  | _ => cases ht

theorem map_step {s s' : Server} {a : Action} {c : ClientRef} (hs : s.step a = some s')
    (h : c ∈ s.clientsMap) : c ∈ s'.clientsMap ∨ ∃ t me, s'.workers t = .remove me c .lock := by
  by_cases hunmap : ∃ t me, a = .unmap t me c
  · obtain ⟨t, me, rfl⟩ := hunmap
    obtain ⟨-, rfl⟩ := Server.step_some.1 hs
    exact Or.inr ⟨t, me, Function.update_self ..⟩
  · left
    apply Server.clientsMap_step hs h
    rintro t me rfl
    exact hunmap ⟨t, me, rfl⟩

theorem live_step {s s' : Server} {a : Action} {c : ClientRef} (hs : s.step a = some s')
    (h : s.Live c) (hfin : ∀ t me, a ≠ .finish t me c) : s'.Live c := by
  rcases h with h | ⟨t, ht⟩
  · rcases map_step hs h with h | ⟨t, me, ht⟩
    · exact Or.inl h
    · exact Or.inr ⟨t, by rw [ht]; rfl⟩
  · exact Or.inr ⟨t, unmapped_step hs ht (hfin t)⟩

/-- A thread that is in a removal was there before, or has just come there. -/
theorem remove_back {s s' : Server} {a : Action} (hs : s.step a = some s') {t : Tid}
    {me c : ClientRef} {pc : RemovePc} (h : s'.workers t = .remove me c pc) :
    s.workers t = .remove me c pc ∨ pc.After t me c a := by
  by_cases ht : Server.thread a = some t
  swap
  · rw [Server.workers_other hs ht] at h
    exact Or.inl h
  right
  obtain ⟨hen, rfl⟩ := Server.step_some.1 hs
  cases a with
  | accept u | free u =>
    obtain rfl := Option.some.inj ht
    rw [Server.next, Server.setWorker_same] at h
    cases h
  | register u | announce u =>
    obtain rfl := Option.some.inj ht
    simp only [Server.next, Function.update_self] at h
    cases h
  | unlist u | unmap u =>
    obtain rfl := Option.some.inj ht
    simp only [Server.next, Function.update_self] at h
    obtain ⟨rfl, rfl, rfl⟩ := WorkerPc.remove.inj h
    rfl
  | loop u me' l ev =>
    obtain rfl := Option.some.inj ht
    obtain ⟨d, l', -, heq⟩ := Server.next_loop hen
    rw [heq, Server.setWorker_same] at h
    cases h
  | find u me' errno =>
    obtain rfl := Option.some.inj ht
    simp only [Server.next] at h
    split at h <;> rw [Server.setWorker_same] at h
    · obtain ⟨rfl, rfl, rfl⟩ := WorkerPc.remove.inj h
      exact ⟨errno, rfl⟩
    · cases h
  | lock u me' d =>
    obtain rfl := Option.some.inj ht
    simp only [Server.next] at h
    split at h
    · change (Server.setWorker _ u _).workers u = _ at h
      rw [Server.setWorker_same] at h
      obtain ⟨rfl, rfl, rfl⟩ := WorkerPc.remove.inj h
      rfl
    · rw [Server.setWorker_same] at h
      obtain ⟨rfl, rfl, rfl⟩ := WorkerPc.remove.inj h
      exact Or.inl rfl
  | unslot u me' d =>
    obtain rfl := Option.some.inj ht
    rw [Server.next, Server.setWorker_same] at h
    obtain ⟨rfl, rfl, rfl⟩ := WorkerPc.remove.inj h
    exact Or.inr rfl
  | finish u me' d =>
    obtain rfl := Option.some.inj ht
    rw [Server.next, Server.setWorker_same] at h
    obtain ⟨rfl, rfl, rfl⟩ := WorkerPc.remove.inj h
    rfl
  | _ => cases ht

theorem removes_of_entered {pc : WorkerPc} {c : ClientRef} (h : pc.entered = some c) :
    pc.removes = some c := by
  unfold WorkerPc.entered at h
  split at h <;> first | exact h | cases h

/-- A thread that has taken the mutex of a client had it before, or has just taken it. -/
theorem entered_back {s s' : Server} {a : Action} (hs : s.step a = some s') {t : Tid}
    {c : ClientRef} (h : (s'.workers t).entered = some c) :
    (s.workers t).entered = some c ∨ ∃ me, a = .lock t me c := by
  cases hw : s'.workers t with
  | remove me d pc =>
    have hback := remove_back hs hw
    rw [hw] at h
    cases pc with
    | slot =>
      obtain rfl := Option.some.inj h
      rcases hback with hold | rfl
      · exact Or.inl (by rw [hold]; rfl)
      · exact Or.inr ⟨me, rfl⟩
    | drain =>
      obtain rfl := Option.some.inj h
      rcases hback with hold | rfl | rfl
      · exact Or.inl (by rw [hold]; rfl)
      · exact Or.inr ⟨me, rfl⟩
      · exact Or.inl (by rw [(Server.step_some.1 hs).1.1]; rfl)
    | free =>
      obtain rfl := Option.some.inj h
      rcases hback with hold | rfl
      · exact Or.inl (by rw [hold]; rfl)
      · exact Or.inl (by rw [(Server.step_some.1 hs).1.1]; rfl)
    | lists | map | lock => cases h
  | _ =>
    rw [hw] at h
    cases h

/-- A client whose mutex a removal has taken is in the map no more. -/
theorem entered_gone {s s' : Server} {a : Action} (hg : Guarded s) (hs : s.step a = some s')
    (h : ∀ t c, (s.workers t).entered = some c → c ∉ s.clientsMap) (t : Tid) (c : ClientRef)
    (hc : (s'.workers t).entered = some c) : c ∉ s'.clientsMap := by
  have hbefore : c < s.nextClient ∧ c ∉ s.clientsMap := by
    rcases entered_back hs hc with hold | ⟨me, rfl⟩
    · exact ⟨hg.removing t c (removes_of_entered hold), h t c hold⟩
    · obtain ⟨⟨hw, -⟩, -⟩ := Server.step_some.1 hs
      exact ⟨hg.removing t c (by rw [hw]; rfl), hg.gone t c (by rw [hw]; rfl)⟩
  intro hmem
  rcases clientsMap_back hs hmem with hold | ⟨rfl, -⟩
  · exact hbefore.2 hold
  · exact lt_irrefl _ hbefore.1

theorem reaches_gone {db : Table} {as : List Action} {s : Server} (h : Reaches db as s) :
    ∀ t c, (s.workers t).entered = some c → c ∉ s.clientsMap := by
  induction h with
  | nil => simp [Server.init, WorkerPc.entered]
  | snoc hr hs ih => exact entered_gone (reaches_guarded hr) hs ih

/-- What is queued was queued before, or a call has just appended it. -/
theorem queue_given {s s' : Server} {a : Action} (hs : s.step a = some s') {c : ClientRef}
    {sln : Solution} (h : sln ∈ (s'.clients c).solutionsQueue) :
    sln ∈ (s.clients c).solutionsQueue ∨ ∃ who, s.calls who = some ⟨sln, .append c⟩ := by
  by_cases hc : s.client a = some c
  swap
  · rw [Server.clients_other hs hc] at h
    exact Or.inl h
  obtain ⟨hen, rfl⟩ := Server.step_some.1 hs
  cases a with
  | register t compilers order =>
    obtain rfl := Option.some.inj hc
    simp [Server.next, clientCreate] at h
  | loop t me l ev =>
    obtain rfl := Option.some.inj hc
    obtain ⟨d, l', hstep, heq⟩ := Server.next_loop hen
    rw [heq, Server.setWorker, Server.setClient_same] at h
    left
    cases loopStep_holding hstep with
    | pop hqueue hslot =>
      rw [hqueue]
      exact List.mem_cons_of_mem _ h
    | clear heq =>
      subst heq
      exact h
    | push heq => cases hen.2.1
    | same hsame => rwa [hsame.queue] at h
  | lock t me d =>
    obtain rfl := Option.some.inj hc
    left
    simp only [Server.next] at h
    split at h <;> simpa [Server.setClient, Server.setWorker, Server.setCall] using h
  | pop t me d x rest =>
    obtain rfl := Option.some.inj hc
    simp only [Server.next, Server.setCall, Server.setClient_same] at h
    rw [hen.2.2]
    exact Or.inl (List.mem_cons_of_mem _ h)
  | unslot t me d | finish t me d =>
    obtain rfl := Option.some.inj hc
    exact Or.inl (by simpa [Server.next, Server.setWorker, Client.clearChecking] using h)
  | free t me d =>
    obtain rfl := Option.some.inj hc
    simp [Server.next, Server.setWorker] at h
  | append who x d =>
    obtain rfl := Option.some.inj hc
    simp only [Server.next, Server.setCall, Server.setClient_same, Client.push, List.mem_append,
      List.mem_singleton] at h
    rcases h with hold | rfl
    · exact Or.inl hold
    · exact Or.inr ⟨who, hen.1⟩
  | _ => cases hc

/-- What is in the slot was there before or queued; a removal unlocks a client with the slot
empty. -/
theorem slot_given {s s' : Server} {a : Action} (hg : Guarded s) (hs : s.step a = some s')
    {c : ClientRef} {sln : Solution} (h : (s'.clients c).checkingSolution = some sln) :
    sln ∈ (s.clients c).solutionsQueue ∨ (s.clients c).checkingSolution = some sln ∧
      ((s'.clients c).locked = false → (s.clients c).locked = false) := by
  by_cases hc : s.client a = some c
  swap
  · rw [Server.clients_other hs hc] at h ⊢
    exact Or.inr ⟨h, id⟩
  obtain ⟨hen, rfl⟩ := Server.step_some.1 hs
  cases a with
  | register t compilers order =>
    obtain rfl := Option.some.inj hc
    simp [Server.next, clientCreate] at h
  | loop t me l ev =>
    obtain rfl := Option.some.inj hc
    obtain ⟨d, l', hstep, heq⟩ := Server.next_loop hen
    rw [heq, Server.setWorker, Server.setClient_same] at h ⊢
    cases loopStep_holding hstep with
    | pop hqueue hslot =>
      obtain rfl := Option.some.inj (hslot.symm.trans h)
      rw [hqueue]
      exact Or.inl List.mem_cons_self
    | clear heq =>
      subst heq
      cases h
    | push heq => cases hen.2.1
    | same hsame =>
      rw [hsame.slot] at h
      exact Or.inr ⟨h, fun hfree => hsame.locked.symm.trans hfree⟩
  | lock t me d =>
    obtain rfl := Option.some.inj hc
    right
    simp only [Server.next] at h ⊢
    split at h <;> simpa [Server.setClient, Server.setWorker, Server.setCall] using h
  | pop t me d x rest =>
    obtain rfl := Option.some.inj hc
    simp only [Server.next, Server.setCall, Server.setClient_same] at h ⊢
    exact Or.inr ⟨h, id⟩
  | finish t me d =>
    obtain rfl := Option.some.inj hc
    simp [Server.next, Server.setWorker, hg.emptied t me d hen.1] at h
  | unslot t me d | free t me d =>
    obtain rfl := Option.some.inj hc
    simp [Server.next, Server.setWorker, Client.clearChecking] at h
  | append who x d =>
    obtain rfl := Option.some.inj hc
    simp only [Server.next, Server.setCall, Server.setClient_same, Client.push] at h ⊢
    exact Or.inr ⟨h, id⟩
  | _ => cases hc

theorem held_back {s s' : Server} {a : Action} (hg : Guarded s) (hs : s.step a = some s')
    {c : ClientRef} {sln : Solution} (h : s'.Held c sln) :
    s.Held c sln ∨ ∃ who, s.calls who = some ⟨sln, .append c⟩ := by
  rcases h with hmem | ⟨hfree, hslot⟩
  · exact (queue_given hs hmem).imp_left Or.inl
  · rcases slot_given hg hs hslot with hmem | ⟨hold, hunlocked⟩
    · exact Or.inl (Or.inl hmem)
    · exact Or.inl (Or.inr ⟨hunlocked hfree, hold⟩)

/-- A push that is about to append was so before, or it has just chosen. -/
theorem append_step {s s' : Server} {a : Action} {sln : Solution} {who : Who} {c : ClientRef}
    (hs : s.step a = some s') (hcall : s'.calls who = some ⟨sln, .append c⟩) :
    s.calls who = some ⟨sln, .append c⟩ ∨ c ∈ s'.clientsMap := by
  by_cases hwho : Server.caller a = some who
  swap
  · exact Or.inl (by rw [← Server.calls_other hs hwho, hcall])
  obtain ⟨hen, rfl⟩ := Server.step_some.1 hs
  cases a with
  | choose w x k ok =>
    obtain rfl := Option.some.inj hwho
    simp only [Server.next] at hcall ⊢
    split at hcall
    · rename_i d hd
      rw [Server.setCall_same] at hcall
      obtain ⟨-, hpc⟩ := PushCall.mk.inj (Option.some.inj hcall)
      obtain rfl := PushPc.append.inj hpc
      exact Or.inr (chooseFrom_mem hd)
    · rw [Server.setCall_same] at hcall
      cases hcall
  | lookup w x =>
    obtain rfl := Option.some.inj hwho
    simp only [Server.next] at hcall
    split at hcall <;> (rw [Server.setCall_same] at hcall; cases hcall)
  | lock t me d =>
    obtain rfl := Option.some.inj hwho
    simp only [Server.next] at hcall
    split at hcall
    · rw [Server.setCall_same] at hcall
      cases hcall
    · exact Or.inl hcall
  | pop | noCompiler | append | dispatch =>
    obtain rfl := Option.some.inj hwho
    simp only [Server.next, Server.setCall_same] at hcall
    cases hcall
  | _ => cases hwho

theorem aimed_step {s s' : Server} {a : Action} {sln : Solution} (hs : s.step a = some s')
    (h : s.Aimed sln) (hk : HandsOver sln s a) : s'.Aimed sln := by
  intro who c hcall'
  rcases append_step hs hcall' with hcall | hmap
  swap
  · exact Or.inl hmap
  rcases h who c hcall with hmap | ⟨t, me, hlock⟩
  · exact map_step hs hmap
  by_cases ht : Server.thread a = some t
  swap
  · exact Or.inr ⟨t, me, by rw [Server.workers_other hs ht, hlock]⟩
  -- the thread waits for the mutex, so this is the step that takes it
  obtain ⟨hen, -⟩ := Server.step_some.1 hs
  have hplace : ∀ {pc : WorkerPc}, s.workers t = pc → pc = .remove me c .lock := by
    rintro pc rfl
    exact hlock
  cases a with
  | lock u m d =>
    obtain rfl := Option.some.inj ht
    obtain ⟨rfl, rfl, -⟩ := WorkerPc.remove.inj (hplace hen.1)
    exact absurd hcall (hk who)
  | loop | unslot | finish =>
    obtain rfl := Option.some.inj ht
    cases hplace hen.1
  | accept | register | announce | find | unlist | unmap | free =>
    obtain rfl := Option.some.inj ht
    cases hplace hen
  | _ => cases ht

/-- From the lock on a client gets nothing of `sln`, and the drain leaves nothing of it. -/
theorem drained_step {s s' : Server} {a : Action} {sln : Solution} (hg : Guarded s)
    (hs : s.step a = some s') (hk : HandsOver sln s a) (h : s.Drained sln) : s'.Drained sln := by
  have hgone := entered_gone hg hs fun t c ht => (h.apart t c ht).1
  refine ⟨fun t c hc => ⟨hgone t c hc, fun who hcall => ?_⟩, fun t me c hw hheld => ?_⟩
  · rcases append_step hs hcall with hold | hmem
    · rcases entered_back hs hc with hbefore | ⟨me, rfl⟩
      · exact (h.apart t c hbefore).2 who hold
      · exact hk who hold
    · exact hgone t c hc hmem
  · -- the client was left like this before, or the drain has just ended
    have hbefore : ¬ s.Held c sln ∧ ∀ who, s.calls who ≠ some ⟨sln, .append c⟩ := by
      rcases remove_back hs hw with hold | rfl
      · exact ⟨h.empty t me c hold, (h.apart t c (by rw [hold]; rfl)).2⟩
      · obtain ⟨⟨hdrain, -, hqueue⟩, -⟩ := Server.step_some.1 hs
        refine ⟨?_, (h.apart t c (by rw [hdrain]; rfl)).2⟩
        simp [Server.Held, hqueue, hg.emptied t me c hdrain]
    rcases held_back hg hs hheld with hold | ⟨who, hcall⟩
    · exact hbefore.1 hold
    · exact hbefore.2 who hcall

/-- A push goes on, or it appends, or it posts the FL result. -/
theorem pushing_step {s s' : Server} {a : Action} {sln : Solution} (hg : Guarded s)
    (hs : s.step a = some s') (haim : s.Aimed sln) (hk : HandsOver sln s a) (h : s.Pushing sln) :
    s'.Accounted sln := by
  obtain ⟨who, pc, hcall⟩ := h
  by_cases hwho : Server.caller a = some who
  swap
  · exact Or.inl ⟨who, pc, by rw [Server.calls_other hs hwho, hcall]⟩
  obtain ⟨hen, rfl⟩ := Server.step_some.1 hs
  have hsame : ∀ {x : Solution} {p : PushPc}, s.calls who = some ⟨x, p⟩ → x = sln ∧ p = pc := by
    intro x p hx
    rw [hcall] at hx
    obtain ⟨rfl, rfl⟩ := PushCall.mk.inj (Option.some.inj hx)
    exact ⟨rfl, rfl⟩
  have hfailed : ∀ ok, ok = true ∧ s.conn = .open →
      ((s.postFailed sln ok).setCall who none).Answered sln := by
    intro ok ⟨hok, hconn⟩
    exact ⟨_, List.mem_cons_self, by simp [hok, hconn], _, _, rfl⟩
  cases a with
  | lock t me c =>
    obtain rfl := Option.some.inj hwho
    rw [hg.no_call (by rw [hen.1]; rfl)] at hcall
    cases hcall
  | pop t me c x rest =>
    obtain rfl := Option.some.inj hwho
    rw [hen.2.1] at hcall
    cases hcall
  | dispatch x rest =>
    obtain rfl := Option.some.inj hwho
    rw [hen.2] at hcall
    cases hcall
  | lookup w x =>
    obtain rfl := Option.some.inj hwho
    obtain ⟨rfl, -⟩ := hsame hen
    left
    simp only [Server.next]
    split <;> exact ⟨w, _, Server.setCall_same ..⟩
  | noCompiler w x ok =>
    obtain rfl := Option.some.inj hwho
    obtain ⟨rfl, -⟩ := hsame hen
    exact Or.inr (Or.inr (hfailed ok (hk rfl)))
  | choose w x k ok =>
    obtain rfl := Option.some.inj hwho
    obtain ⟨rfl, -⟩ := hsame hen
    simp only [Server.next]
    split
    · exact Or.inl ⟨w, _, Server.setCall_same ..⟩
    · rename_i hnone
      exact Or.inr (Or.inr (hfailed ok (hk rfl hnone)))
  | append w x c =>
    obtain rfl := Option.some.inj hwho
    obtain ⟨rfl, -⟩ := hsame hen.1
    refine Or.inr (Or.inl ⟨c, ?_, Or.inl ?_⟩)
    · rcases haim w c hen.1 with hmap | ⟨t, me, hlock⟩
      · exact Or.inl hmap
      · exact Or.inr ⟨t, by change (s.workers t).unmapped = some c; rw [hlock]; rfl⟩
    · change x ∈ ((s.setClient c ((s.clients c).push x)).clients c).solutionsQueue
      rw [Server.setClient_same]
      simp [Client.push]
  | _ => cases hwho

/-- A solution with a client stays there, or the loop takes it into the slot, or the
removal takes it over, or it is answered. -/
theorem held_step {s s' : Server} {a : Action} {sln : Solution} {c : ClientRef} (hg : Guarded s)
    (hs : s.step a = some s') (hk : HandsOver sln s a) (hdrained : s.Drained sln)
    (hlive : s.Live c) (h : s.Held c sln) : s'.Accounted sln := by
  have hkept : (∀ t me, a ≠ .finish t me c) → s'.Held c sln → s'.Accounted sln :=
    fun hfin hheld => Or.inr (Or.inl ⟨c, live_step hs hlive hfin, hheld⟩)
  by_cases hc : s.client a = some c
  swap
  · apply hkept
    · rintro t me rfl
      exact hc rfl
    · rwa [Server.Held, Server.clients_other hs hc]
  have hs' := hs
  obtain ⟨hen, rfl⟩ := Server.step_some.1 hs
  -- while a thread is inside the mutex, what the slot points to is in its hands
  have hinside : ∀ {t : Tid} {me : ClientRef} {pc : RemovePc}, s.workers t = .remove me c pc →
      (WorkerPc.remove me c pc).inside = some c → sln ∈ (s.clients c).solutionsQueue := by
    intro t me pc hw hin
    rcases h with hq | ⟨hfree, -⟩
    · exact hq
    · exact absurd (by rw [hw, hin]) (hg.not_inside hfree t)
  cases a with
  | register t compilers order =>
    obtain rfl := Option.some.inj hc
    rcases hlive with hmap | ⟨u, hu⟩
    · exact absurd (hg.known _ hmap) (Nat.lt_irrefl _)
    · exact absurd (hg.removing u _ (removes_of_unmapped hu)) (Nat.lt_irrefl _)
  | loop t me l ev =>
    obtain rfl := Option.some.inj hc
    obtain ⟨d, l', hstep, heq⟩ := Server.next_loop hen
    obtain ⟨-, hadmit, -⟩ := hen
    have hd : (s.next (.loop t me l ev)).clients me = d := by
      rw [heq]
      exact Server.setClient_same ..
    have hlocked : d.locked = (s.clients me).locked := (loopStep_identity hstep).2
    have hgoal : (sln ∈ d.solutionsQueue ∨ (s.clients me).locked = false ∧
        d.checkingSolution = some sln) → (s.next (.loop t me l ev)).Accounted sln := by
      intro hheld
      apply hkept (by simp)
      rwa [Server.Held, hd, hlocked]
    cases loopStep_holding hstep with
    | @pop _ x hqueue hslot =>
      have hqueue : (s.clients me).solutionsQueue = x :: d.solutionsQueue := hqueue
      have hfree : (s.clients me).locked = false := by simpa [Server.admits] using hadmit
      rcases h with hq | ⟨-, hsln⟩
      · apply hgoal
        rw [hqueue] at hq
        rcases List.mem_cons.1 hq with rfl | hq
        · exact Or.inr ⟨hfree, hslot⟩
        · exact Or.inl hq
      · exact Or.inr (Or.inr (answered_step hs' (hk (by rw [hqueue]; simp) hsln)))
    | clear hclear =>
      rcases h with hq | ⟨-, hsln⟩
      · apply hgoal
        left
        obtain rfl : d = (s.clients me).clearChecking := hclear
        exact hq
      · exact Or.inr (Or.inr (answered_step hs' (hk hsln)))
    | push => simp [Server.admits] at hadmit
    | same hsame =>
      apply hgoal
      have hq' : d.solutionsQueue = (s.clients me).solutionsQueue := hsame.queue
      have hslot' : d.checkingSolution = (s.clients me).checkingSolution := hsame.slot
      rwa [hq', hslot']
  | lock t me d =>
    obtain rfl := Option.some.inj hc
    rcases h with hq | ⟨-, hsln⟩
    · apply hkept (by simp)
      left
      simp only [Server.next]
      split <;> simpa [Server.setCall, Server.setWorker, Server.setClient] using hq
    · left
      simp only [Server.next, hsln]
      exact ⟨.worker t, _, Server.setCall_same ..⟩
  | unslot t me d =>
    obtain rfl := Option.some.inj hc
    have hq := hinside hen.1 rfl
    apply hkept (by simp)
    left
    simpa [Server.next, Server.setWorker, Server.setClient, Client.clearChecking] using hq
  | pop t me d x rest =>
    obtain rfl := Option.some.inj hc
    obtain ⟨hw, -, hqueue⟩ := hen
    have hq := hinside hw rfl
    rw [hqueue] at hq
    rcases List.mem_cons.1 hq with rfl | hq
    · exact Or.inl ⟨.worker t, _, Server.setCall_same ..⟩
    · apply hkept (by simp)
      left
      simpa [Server.next, Server.setCall, Server.setClient] using hq
  | finish t me d =>
    obtain rfl := Option.some.inj hc
    obtain ⟨hw, -, hqueue⟩ := hen
    have hq := hinside hw rfl
    rw [hqueue] at hq
    cases hq
  | free t me d =>
    obtain rfl := Option.some.inj hc
    exact absurd h (hdrained.empty t me d hen)
  | append who x d =>
    obtain rfl := Option.some.inj hc
    apply hkept (by simp)
    have hclient : (s.next (.append who x d)).clients d = (s.clients d).push x :=
      Server.setClient_same ..
    rw [Server.Held, hclient]
    rcases h with hq | hslot
    · exact Or.inl (List.mem_append_left _ hq)
    · exact Or.inr hslot
  | _ => cases hc

theorem accounted_step {s s' : Server} {a : Action} {sln : Solution} (hg : Guarded s)
    (hs : s.step a = some s') (haim : s.Aimed sln) (hdrained : s.Drained sln)
    (hk : HandsOver sln s a) (h : s.Accounted sln) : s'.Accounted sln := by
  rcases h with h | ⟨c, hlive, hheld⟩ | h
  · exact pushing_step hg hs haim hk h
  · exact held_step hg hs hk hdrained hlive hheld
  · exact Or.inr (Or.inr (answered_step hs h))

/-- Nothing is under way for a solution that is accounted for: then it is settled. -/
theorem Server.Accounted.notLost {s : Server} {sln : Solution} (h : s.Accounted sln) :
    s.NotLost sln := by
  intro hpush hremoves
  rcases h with h | ⟨c, hmap | ⟨t, ht⟩, hheld⟩ | h
  · exact absurd h hpush
  · exact Or.inl ⟨c, hmap, hheld.imp id fun h => h.2⟩
  · exact absurd (hheld.imp id fun h => h.2) (hremoves t c (removes_of_unmapped ht))
  · exact Or.inr h

/-- When a push begins no other call has the solution, and no client. -/
theorem lookup_alone {db : Table} {as : List Action} {s : Server} {who : Who} {sln : Solution}
    (h : Reaches db as s) (hpush : s.calls who = some ⟨sln, .lookup⟩) :
    (∀ w c, s.calls w ≠ some ⟨sln, .append c⟩) ∧ ∀ c, ¬ s.Held c sln := by
  obtain ⟨-, hd⟩ := reaches_dispatched h
  have hapart : ∀ p, p ≠ .hand who → sln ∉ s.holds p := by
    intro p hne hmem
    exact hd.exclusive.apart p (.hand who) hne (List.mem_map_of_mem hmem)
      (by simp [Server.holds, hpush])
  constructor
  · intro w c hcall
    by_cases hw : w = who
    · subst hw
      rw [hpush] at hcall
      cases hcall
    · exact hapart (.hand w) (by simpa using hw) (by simp [Server.holds, hcall])
  · rintro c (hmem | ⟨hfree, hslot⟩)
    · exact hapart (.queue c) (by simp) hmem
    · exact hapart (.slot c) (by simp) (by simp [Server.holds, hfree, hslot])

/-- From the moment a push begins: if its steps and those of the removals, in any order
and with any other steps in between, hand the solution over, it is not lost, and never
appended to the queue of a client that has been drained. -/
theorem pushed_not_lost (db : Table) (pre as : List Action) (s₁ s : Server) (who : Who)
    (sln : Solution) (hpre : Reaches db pre s₁) (hpush : s₁.calls who = some ⟨sln, .lookup⟩)
    (hrun : Run Server.step s₁ as s) (hk : Along Server.step s₁ as (HandsOver sln)) :
    s.NotLost sln ∧ Along Server.step s₁ as (AppendsUndrained sln) := by
  obtain ⟨hunaimed, hnone⟩ := lookup_alone hpre hpush
  have haim : s₁.Aimed sln := fun w c hcall => absurd hcall (hunaimed w c)
  have hdrained : s₁.Drained sln :=
    ⟨fun t c ht => ⟨reaches_gone hpre t c ht, fun w => hunaimed w c⟩, fun _ _ c _ => hnone c⟩
  have hinv : Throughout Server.step s₁ as fun s =>
      Guarded s ∧ s.Aimed sln ∧ s.Drained sln ∧ s.Accounted sln := by
    refine Throughout.of_along hk ⟨reaches_guarded hpre, haim, hdrained, Or.inl ⟨who, _, hpush⟩⟩ ?_
    intro s a s' ⟨hg, haim, hdrained, hacc⟩ hok hs
    exact ⟨step_guarded hg hs, aimed_step hs haim hok, drained_step hg hs hok hdrained,
      accounted_step hg hs haim hdrained hok hacc⟩
  refine ⟨(hinv as [] s (by simp) hrun).2.2.2.notLost, ?_⟩
  rintro before a after t rfl hr
  obtain ⟨t', hr', hrest⟩ := Run.append_iff.1 hrun
  obtain rfl := hr.unique hr'
  obtain ⟨m, hm, -⟩ := Run.cons_iff.1 hrest
  obtain ⟨hen, -⟩ := Server.step_some.1 hm
  cases a with
  | append w x c =>
    rintro rfl
    exact (hinv before (.append w x c :: after) t rfl hr).2.1 w c hen.1
  | _ => trivial

/-- One client waits for a result, and the dispatch of row 1 begins. -/
def dispatchRun : List Action :=
  joining 0 0 ++ (resetting 0 0).take 2 ++ starting ++ extracting [sampleRow 1] ++
    [.dispatch (decodeRow 0 (sampleRow 1)) []]

/-- The push chooses the client, a second one being there, and appends to it; the client
is reset, and its removal pushes the solution on. -/
def handOverSteps : List Action :=
  pushing .poll (decodeRow 0 (sampleRow 1)) 0 ++ (resetting 0 0).drop 2 ++ unmapping 0 0 0 ++
    [.lock 0 0 0, .pop 0 0 0 (decodeRow 0 (sampleRow 1)) []] ++
    pushing (.worker 0) (decodeRow 0 (sampleRow 1)) 1 ++ [.finish 0 0 0, .free 0 0 0]

theorem pushed_not_lost_handOver :
    ∃ s₁ s, Reaches oneNewRow (dispatchRun ++ joining 1 1) s₁ ∧
      s₁.calls .poll = some ⟨decodeRow 0 (sampleRow 1), .lookup⟩ ∧
      Run Server.step s₁ handOverSteps s ∧ s.NotLost (decodeRow 0 (sampleRow 1)) ∧
      Along Server.step s₁ handOverSteps (AppendsUndrained (decodeRow 0 (sampleRow 1))) := by
  refine ⟨_, _, Run.iff_foldlM.2 rfl, rfl, Run.iff_foldlM.2 rfl, ?_⟩
  apply pushed_not_lost oneNewRow (dispatchRun ++ joining 1 1) handOverSteps _ _ .poll _
    (Run.iff_foldlM.2 rfl) rfl (Run.iff_foldlM.2 rfl)
  refine (along_cons rfl).2 ⟨trivial, (along_cons rfl).2 ⟨?_, ?_⟩⟩
  · intro _ hnone
    cases hnone
  iterate 5 refine (along_cons rfl).2 ⟨trivial, ?_⟩
  refine (along_cons rfl).2 ⟨?_, ?_⟩
  · intro who hcall
    cases who <;> cases hcall
  iterate 2 refine (along_cons rfl).2 ⟨trivial, ?_⟩
  refine (along_cons rfl).2 ⟨?_, ?_⟩
  · intro _ hnone
    cases hnone
  iterate 3 refine (along_cons rfl).2 ⟨trivial, ?_⟩
  exact along_nil

/-- The push chooses the only client; before it appends, the client is reset, removed,
drained and freed. -/
def drainSteps : List Action :=
  [.lookup .poll (decodeRow 0 (sampleRow 1)), .choose .poll (decodeRow 0 (sampleRow 1)) 0 true] ++
    (resetting 0 0).drop 2 ++ unmapping 0 0 0 ++ [.lock 0 0 0, .finish 0 0 0, .free 0 0 0]

/-- The solution is then in the queue of a client that is in no map and has no thread. -/
theorem push_lost :
    ∃ s₁ s₂ s, Reaches oneNewRow dispatchRun s₁ ∧
      s₁.calls .poll = some ⟨decodeRow 0 (sampleRow 1), .lookup⟩ ∧
      Run Server.step s₁ drainSteps s₂ ∧
      ¬ AppendsUndrained (decodeRow 0 (sampleRow 1)) s₂
        (.append .poll (decodeRow 0 (sampleRow 1)) 0) ∧
      s₂.step (.append .poll (decodeRow 0 (sampleRow 1)) 0) = some s ∧
      ¬ s.NotLost (decodeRow 0 (sampleRow 1)) := by
  have hruns : ∃ s₁ s₂ s, Reaches oneNewRow dispatchRun s₁ ∧
      s₁.calls .poll = some ⟨decodeRow 0 (sampleRow 1), .lookup⟩ ∧
      Run Server.step s₁ drainSteps s₂ ∧
      s₂.step (.append .poll (decodeRow 0 (sampleRow 1)) 0) = some s ∧
      s₂.workers 0 = .done ∧ s₂.clientsMap = [] ∧ s.clientsMap = [] ∧
      (∀ who, s.calls who = none) ∧
      s.log.map Query.stmt = [.commit, .setChecking 1, .startTransaction, .selectNew] := by
    refine ⟨_, _, _, Run.iff_foldlM.2 rfl, rfl, Run.iff_foldlM.2 rfl, rfl, rfl, rfl, rfl, ?_, rfl⟩
    intro who
    cases who <;> rfl
  obtain ⟨s₁, s₂, s, hpre, hpush, hrun, hlast, hdone, hmap₂, hmap, hcalls, hlog⟩ := hruns
  -- thread 0 is done and no other one has begun
  have hidle : ∀ t c, (s₂.workers t).removes ≠ some c := by
    intro t c
    by_cases ht : t = 0
    · subst ht
      rw [hdone]
      simp [WorkerPc.removes]
    · have hother : ∀ a ∈ dispatchRun ++ drainSteps, Server.thread a ≠ some t := by
        have hzero : ∀ a ∈ dispatchRun ++ drainSteps,
            Server.thread a = none ∨ Server.thread a = some 0 := by decide
        intro a ha hat
        rcases hzero a ha with h | h
        · rw [h] at hat
          cases hat
        · rw [h] at hat
          exact ht (Option.some.inj hat).symm
      rw [workers_run (Run.trans hpre hrun) hother]
      simp [Server.init, WorkerPc.removes]
  refine ⟨s₁, s₂, s, hpre, hpush, hrun, fun h => ?_, hlast, fun h => ?_⟩
  · rcases h rfl with hmem | ⟨t, me, hlock⟩
    · rw [hmap₂] at hmem
      cases hmem
    · exact hidle t 0 (by rw [hlock]; rfl)
  · have hsettled := h ?_ ?_
    · rcases hsettled with ⟨c, hc, -⟩ | ⟨q, hq, -, _, _, hstmt⟩
      · rw [hmap] at hc
        cases hc
      · have hmem := List.mem_map_of_mem (f := Query.stmt) hq
        rw [hlog, hstmt] at hmem
        simp at hmem
    · rintro ⟨who, pc, hcall⟩
      rw [hcalls who] at hcall
      cases hcall
    · intro t c ht
      rw [Server.workers_other hlast (by simp [Server.thread])] at ht
      exact absurd ht (hidle t c)

end JudgeServer
