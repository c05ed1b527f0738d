import JudgeServer.Server.Compilers
import JudgeServer.Server.Ids

/-! `remove_client` when nothing else happens meanwhile. The client leaves the lists and
the map before its solutions are pushed, so no push can choose it, and each of them ends
up with a remaining client or is refused. -/

namespace JudgeServer

open Transition

namespace Server

/-- The loop that empties the queue of client `c`. Of each push `oks` tells whether the
query that it may make succeeds. -/
def drain (c : ClientRef) : ℕ → List Bool → Server → Option Server
  | rounds, oks, s =>
    match (s.clients c).solutionsQueue with
    | [] => some s
    | sln :: rest =>
      match rounds with
      | 0 => none
      | rounds + 1 =>
        let s' := s.setClient c { s.clients c with solutionsQueue := rest }
        drain c rounds oks.tail (s'.pushSolution sln (oks.headD true)).2

/-- Lines 420 to 442: every record of the client with this id is deleted. -/
def forget (s : Server) (id : UInt32) (c : ClientRef) : Server :=
  { s with
    compilersMap := s.compilersMap.unlist id
    clientsMap := s.clientsMap.filter (· ≠ c)
    lastClientId := s.lastClientId - 1 }

/-- Lines 447 to 450. -/
def handOver (s : Server) (c : ClientRef) (ok : Bool) : Server :=
  match (s.clients c).checkingSolution with
  | some sln =>
    let s' := (s.pushSolution sln ok).2
    s'.setClient c (s'.clients c).clearChecking
  | none => s

/-- `remove_client`, with as many rounds for its last loop as there can be solutions. -/
def removeClient (s : Server) (id : UInt32) (rounds : ℕ) (oks : List Bool) : Option Server :=
  match s.findClient id with
  | none => some s
  | some c =>
    let s₁ := s.forget id c
    let s₂ := s₁.setClient c { s₁.clients c with locked := true }
    (drain c rounds oks.tail (s₂.handOver c (oks.headD true))).map fun s₃ =>
      s₃.setClient c { s₃.clients c with locked := false }

end Server

/-- Where each solution goes: to a client, or to nobody. -/
abbrev Plan := List (Solution × Option ClientRef)

/-- What the plan gives to client `d`. -/
def Plan.given (plan : Plan) (d : ClientRef) : List Solution :=
  (plan.filter (·.2 = some d)).map Prod.fst

def Plan.refused (plan : Plan) : List Solution := (plan.filter (·.2 = none)).map Prod.fst

/-- The solutions are pushed as planned: to registered clients, behind what is in their
queues, and for the others one FL result each. Nothing else changes but client `x`. -/
structure HandsOut (x : ClientRef) (s : Server) (plan : Plan) (s' : Server) : Prop where
  targets : ∀ p ∈ plan, ∀ d, p.2 = some d → d ∈ s.clientsMap
  compilers : s'.compilersMap = s.compilersMap
  clientsMap : s'.clientsMap = s.clientsMap
  slots : ∀ d, d ≠ x → (s'.clients d).checkingSolution = (s.clients d).checkingSolution
  queues : ∀ d, d ≠ x →
    (s'.clients d).solutionsQueue = (s.clients d).solutionsQueue ++ plan.given d
  failed : ∃ queries, s'.log = queries ++ s.log ∧ queries.map Query.stmt =
    (plan.refused.map fun sln => Stmt.postResult sln.id 0 (cstr "FL")).reverse

/-- What `remove_client` makes of the solutions of client `x`. -/
structure Redispatched (s : Server) (x : ClientRef) (plan : Plan) (s' : Server) : Prop where
  all : plan.map Prod.fst =
    (s.clients x).checkingSolution.toList ++ (s.clients x).solutionsQueue
  targets : ∀ p ∈ plan, ∀ d, p.2 = some d → d ∈ s'.clientsMap
  clientsMap : s'.clientsMap = s.clientsMap.filter (· ≠ x)
  chain : s'.compilersMap.chain = s.compilersMap.chain
  lists : ∀ k ∈ s.compilersMap.chain, (s'.compilersMap.obj k).clientsList =
    (s.compilersMap.obj k).clientsList.filter (· ≠ (s.clients x).id)
  slots : ∀ d, d ≠ x → (s'.clients d).checkingSolution = (s.clients d).checkingSolution
  queues : ∀ d, d ≠ x →
    (s'.clients d).solutionsQueue = (s.clients d).solutionsQueue ++ plan.given d
  failed : ∃ queries, s'.log = queries ++ s.log ∧ queries.map Query.stmt =
    (plan.refused.map fun sln => Stmt.postResult sln.id 0 (cstr "FL")).reverse

theorem Plan.given_append (plan plan' : Plan) (d : ClientRef) :
    Plan.given (plan ++ plan') d = plan.given d ++ plan'.given d := by
  simp only [Plan.given, List.filter_append, List.map_append]

theorem Plan.refused_append (plan plan' : Plan) :
    Plan.refused (plan ++ plan') = plan.refused ++ plan'.refused := by
  simp only [Plan.refused, List.filter_append, List.map_append]

namespace HandsOut

variable {x : ClientRef} {s s' s'' : Server} {plan plan' : Plan}

theorem trans (h : HandsOut x s plan s') (h' : HandsOut x s' plan' s'') :
    HandsOut x s (plan ++ plan') s'' where
  targets := by
    intro p hp d hd
    rcases List.mem_append.1 hp with hp | hp
    · exact h.targets p hp d hd
    · rw [← h.clientsMap]
      exact h'.targets p hp d hd
  compilers := h'.compilers.trans h.compilers
  clientsMap := h'.clientsMap.trans h.clientsMap
  slots := fun d hd => (h'.slots d hd).trans (h.slots d hd)
  queues := by
    intro d hd
    rw [h'.queues d hd, h.queues d hd, Plan.given_append, List.append_assoc]
  failed := by
    obtain ⟨qs, hlog, hqs⟩ := h.failed
    obtain ⟨qs', hlog', hqs'⟩ := h'.failed
    refine ⟨qs' ++ qs, by rw [hlog', hlog, List.append_assoc], ?_⟩
    rw [List.map_append, hqs, hqs', Plan.refused_append, List.map_append, List.reverse_append]

/-- Nothing is pushed, and at most client `x` changes. -/
theorem own (s : Server) (client : Client) : HandsOut x s [] (s.setClient x client) where
  targets := by simp
  compilers := rfl
  clientsMap := rfl
  slots := fun d hd => by rw [s.setClient_other client hd]
  queues := fun d hd => by simp [s.setClient_other client hd, Plan.given]
  failed := ⟨[], rfl, rfl⟩

theorem refl (x : ClientRef) (s : Server) : HandsOut x s [] s where
  targets := by simp
  compilers := rfl
  clientsMap := rfl
  slots := fun _ _ => rfl
  queues := fun _ _ => (List.append_nil _).symm
  failed := ⟨[], rfl, rfl⟩

theorem failing (x : ClientRef) (s : Server) (sln : Solution) (ok : Bool) :
    HandsOut x s [(sln, none)] (s.postFailed sln ok) where
  targets := by simp
  compilers := rfl
  clientsMap := rfl
  slots := fun _ _ => rfl
  queues := fun d _ => by simp [Plan.given, Server.postFailed, Server.query]
  failed := ⟨[_], rfl, rfl⟩

theorem pushing {c : ClientRef} (x : ClientRef) (s : Server) (sln : Solution)
    (hc : c ∈ s.clientsMap) :
    HandsOut x s [(sln, some c)] (s.setClient c ((s.clients c).push sln)) where
  targets := by simpa using hc
  compilers := rfl
  clientsMap := rfl
  slots := by
    intro d _
    by_cases hd : d = c
    · subst hd
      rw [s.setClient_same]
      rfl
    · rw [s.setClient_other _ hd]
  queues := by
    intro d _
    by_cases hd : d = c
    · subst hd
      simp [Plan.given, Client.push]
    · have hne : ¬ c = d := fun heq => hd heq.symm
      simp [s.setClient_other _ hd, Plan.given, hne]
  failed := ⟨[], rfl, rfl⟩

end HandsOut

namespace Server

/-- A push of a solution, and that it leaves a client alone that is not registered. -/
theorem pushSolution_handsOut {x : ClientRef} {s : Server} (sln : Solution) (ok : Bool)
    (hx : x ∉ s.clientsMap) :
    (∃ target, HandsOut x s [(sln, target)] (s.pushSolution sln ok).2) ∧
      (s.pushSolution sln ok).2.clients x = s.clients x := by
  cases hfind : s.compilersMap.find sln.compilerId with
  | none =>
    rw [pushSolution_noCompiler ok hfind]
    exact ⟨⟨none, .failing x s sln ok⟩, rfl⟩
  | some k =>
    cases hchoose : s.chooseFrom k with
    | none =>
      rw [pushSolution_noClients ok hfind hchoose]
      exact ⟨⟨none, .failing x s sln ok⟩, rfl⟩
    | some c =>
      have hc := chooseFrom_mem hchoose
      have hne : x ≠ c := fun heq => hx (heq ▸ hc)
      rw [pushSolution_chosen ok hfind hchoose]
      exact ⟨⟨some c, .pushing x s sln hc⟩, s.setClient_other _ hne⟩

/-- The loop hands out the queue in its order and ends. -/
theorem drain_handsOut {x : ClientRef} (queue : List Solution) (oks : List Bool) (s : Server)
    (hqueue : (s.clients x).solutionsQueue = queue) (hx : x ∉ s.clientsMap) :
    ∃ s' plan, (∀ rounds, queue.length ≤ rounds → drain x rounds oks s = some s') ∧
      plan.map Prod.fst = queue ∧ HandsOut x s plan s' := by
  induction queue generalizing s oks with
  | nil =>
    refine ⟨s, [], fun rounds _ => ?_, rfl, .refl x s⟩
    unfold drain
    simp only [hqueue]
  | cons sln rest ih =>
    set s₁ := s.setClient x { s.clients x with solutionsQueue := rest } with hs₁
    obtain ⟨⟨target, hpush⟩, hkept⟩ := pushSolution_handsOut (s := s₁) sln (oks.headD true) hx
    have hrest : ((s₁.pushSolution sln (oks.headD true)).2.clients x).solutionsQueue = rest := by
      rw [hkept, hs₁, setClient_same]
    have hgone : x ∉ (s₁.pushSolution sln (oks.headD true)).2.clientsMap := by
      rw [hpush.clientsMap]
      exact hx
    obtain ⟨s', plan, hloop, hplan, hout⟩ := ih oks.tail _ hrest hgone
    refine ⟨s', (sln, target) :: plan, fun rounds hlen => ?_, by rw [List.map_cons, hplan], ?_⟩
    · obtain ⟨rounds, rfl⟩ : ∃ r, rounds = r + 1 := ⟨rounds - 1, by simp at hlen; omega⟩
      unfold drain
      simp only [hqueue]
      exact hloop rounds (by simpa using hlen)
    · exact (HandsOut.own s _).trans (hpush.trans hout)

theorem handOver_handsOut {x : ClientRef} (s : Server) (ok : Bool) (hx : x ∉ s.clientsMap) :
    (∃ plan, plan.map Prod.fst = (s.clients x).checkingSolution.toList ∧
      HandsOut x s plan (s.handOver x ok)) ∧
      ((s.handOver x ok).clients x).solutionsQueue = (s.clients x).solutionsQueue := by
  unfold handOver
  cases hslot : (s.clients x).checkingSolution with
  | none => exact ⟨⟨[], rfl, .refl x s⟩, rfl⟩
  | some sln =>
    obtain ⟨⟨target, hpush⟩, hkept⟩ := pushSolution_handsOut (s := s) sln ok hx
    refine ⟨⟨[(sln, target)] ++ [], rfl, hpush.trans (.own _ _)⟩, ?_⟩
    rw [setClient_same, hkept]
    rfl

end Server

/-- The removal of a registered client ends and hands out all that the client held. -/
theorem removed_redispatched (s : Server) (x : ClientRef) (oks : List Bool) (hids : IdsDistinct s)
    (hx : x ∈ s.clientsMap) :
    ∃ s' plan, (∀ rounds, (s.clients x).solutionsQueue.length ≤ rounds →
      s.removeClient (s.clients x).id rounds oks = some s') ∧ Redispatched s x plan s' := by
  set s₁ := s.forget (s.clients x).id x with hs₁
  set s₂ := s₁.setClient x { s₁.clients x with locked := true } with hs₂
  have hgone : x ∉ s₂.clientsMap := by simp [hs₂, hs₁, Server.forget, Server.setClient]
  have hown : s₂.clients x = { s.clients x with locked := true } := Server.setClient_same ..
  obtain ⟨⟨first, hfirst, hslot⟩, hqueue⟩ := s₂.handOver_handsOut (oks.headD true) hgone
  rw [hown] at hfirst hqueue
  have hgone' : x ∉ (s₂.handOver x (oks.headD true)).clientsMap := by
    rw [hslot.clientsMap]
    exact hgone
  obtain ⟨s₃, rest, hloop, hrest, hdrain⟩ := Server.drain_handsOut _ oks.tail _ hqueue hgone'
  have hout := (HandsOut.own s₁ _).trans ((hslot.trans hdrain).trans (.own s₃
    { s₃.clients x with locked := false }))
  refine ⟨_, [] ++ (first ++ rest ++ []), fun rounds hlen => ?_, ?all, ?targets, hout.clientsMap,
    ?chain, ?lists, hout.slots, hout.queues, hout.failed⟩
  · simp only [Server.removeClient, findClient_self hids hx]
    rw [← hs₁, ← hs₂, hloop rounds hlen]
    rfl
  case all => simp [hfirst, hrest]
  case targets =>
    intro p hp d hd
    rw [hout.clientsMap]
    exact hout.targets p hp d hd
  case chain =>
    rw [hout.compilers]
    rfl
  case lists =>
    intro k hk
    rw [hout.compilers]
    simp [hs₁, Server.forget, CompilersMap.unlist, hk]

/-- Two clients with compiler 5. The first one is checking a solution and has two in its
queue, the second of them for a compiler that nobody has. -/
def leavingServer : Server :=
  { Server.init oneNewRow with
    compilersMap := CompilersMap.announceAll 2 [5] []
      (CompilersMap.announceAll 1 [5] [] (Server.init oneNewRow).compilersMap)
    clientsMap := [1, 0]
    clients := fun c =>
      if c = 0 then { clientCreate 1 with
        checkingSolution := some (sampleSolution 0 1)
        solutionsQueue := [sampleSolution 1 2, { sampleSolution 2 3 with compilerId := 6 }] }
      else clientCreate 2
    nextClient := 2 }

theorem removed_redispatched_leaving :
    ∃ s' plan, (∀ rounds, 2 ≤ rounds → leavingServer.removeClient 1 rounds [] = some s') ∧
      Redispatched leavingServer 0 plan s' :=
  removed_redispatched leavingServer 0 [] (by unfold IdsDistinct; decide) (by decide)

/-! The steps of a removal come to the same. -/

namespace Server

@[simp] theorem chooseFrom_setWorker (s : Server) (t : Tid) (pc : WorkerPc) (k : CompilerRef) :
    (s.setWorker t pc).chooseFrom k = s.chooseFrom k := rfl

@[simp] theorem pushSolution_setWorker (s : Server) (t : Tid) (pc : WorkerPc) (sln : Solution)
    (ok : Bool) :
    ((s.setWorker t pc).pushSolution sln ok).2 = (s.pushSolution sln ok).2.setWorker t pc := by
  have hmap : (s.setWorker t pc).compilersMap = s.compilersMap := rfl
  unfold pushSolution
  rw [hmap]
  cases s.compilersMap.find sln.compilerId with
  | none => rfl
  | some k =>
    simp only [chooseFrom_setWorker]
    cases s.chooseFrom k <;> rfl

@[simp] theorem pushSolution_setCall (s : Server) (who : Who) (call : Option PushCall)
    (sln : Solution) (ok : Bool) :
    ((s.setCall who call).pushSolution sln ok).2 = (s.pushSolution sln ok).2.setCall who call := by
  have hmap : (s.setCall who call).compilersMap = s.compilersMap := rfl
  have hchoose : ∀ k, (s.setCall who call).chooseFrom k = s.chooseFrom k := fun _ => rfl
  unfold pushSolution
  rw [hmap]
  cases s.compilersMap.find sln.compilerId with
  | none => rfl
  | some k =>
    simp only [hchoose]
    cases s.chooseFrom k <;> rfl

@[simp] theorem pushSolution_workers (s : Server) (sln : Solution) (ok : Bool) :
    (s.pushSolution sln ok).2.workers = s.workers := by
  unfold pushSolution
  split
  · rfl
  · split <;> rfl

@[simp] theorem pushSolution_calls (s : Server) (sln : Solution) (ok : Bool) :
    (s.pushSolution sln ok).2.calls = s.calls := by
  unfold pushSolution
  split
  · rfl
  · split <;> rfl

theorem setCall_idle {s : Server} {who : Who} (h : s.calls who = none) :
    s.setCall who none = s := by
  unfold setCall
  rw [← h, Function.update_eq_self]

/-- A push by a thread that has no other call in progress. -/
theorem push_run {s : Server} {who : Who} {sln : Solution}
    (hg : Guarded (s.setCall who (some ⟨sln, .lookup⟩))) (hidle : s.calls who = none) (ok : Bool) :
    ∃ as, Run Server.step (s.setCall who (some ⟨sln, .lookup⟩)) as (s.pushSolution sln ok).2 := by
  obtain ⟨as, hrun⟩ := pushSolution_run hg (s.setCall_same who _) ok
  rw [pushSolution_setCall, setCall_setCall, setCall_idle (by simpa using hidle)] at hrun
  exact ⟨as, hrun⟩

theorem drain_run {t : Tid} {me c : ClientRef} (rounds : ℕ) (oks : List Bool) {s s' : Server}
    (hg : Guarded s) (hw : s.workers t = .remove me c .drain) (hidle : s.calls (.worker t) = none)
    (h : drain c rounds oks s = some s') :
    (∃ as, Run Server.step s as s') ∧ Guarded s' ∧ s'.workers = s.workers ∧ s'.calls = s.calls ∧
      (s'.clients c).solutionsQueue = [] := by
  induction rounds generalizing s oks with
  | zero =>
    unfold drain at h
    split at h
    · rename_i hempty
      obtain rfl := Option.some.inj h
      exact ⟨⟨[], .nil⟩, hg, rfl, rfl, hempty⟩
    · cases h
  | succ rounds ih =>
    unfold drain at h
    split at h
    · rename_i hempty
      obtain rfl := Option.some.inj h
      exact ⟨⟨[], .nil⟩, hg, rfl, rfl, hempty⟩
    · rename_i sln rest hqueue
      set s₁ := s.setClient c { s.clients c with solutionsQueue := rest } with hs₁
      have hpop : s.step (.pop t me c sln rest) =
          some (s₁.setCall (.worker t) (some ⟨sln, .lookup⟩)) := step_some.2 ⟨⟨hw, hidle, hqueue⟩, rfl⟩
      have hg₁ := step_guarded hg hpop
      obtain ⟨as, hpush⟩ := push_run hg₁ hidle (oks.headD true)
      have hg₂ : Guarded (s₁.pushSolution sln (oks.headD true)).2 :=
        hpush.invariant hg₁ fun _ _ _ hg hs => step_guarded hg hs
      obtain ⟨⟨bs, hrest⟩, hg', hw', hidle', hempty⟩ :=
        ih oks.tail hg₂ ((congrFun (pushSolution_workers ..) t).trans hw)
          ((congrFun (pushSolution_calls ..) _).trans hidle) h
      rw [pushSolution_workers] at hw'
      rw [pushSolution_calls] at hidle'
      exact ⟨⟨_, ((Run.single hpop).trans hpush).trans hrest⟩, hg', hw', hidle', hempty⟩

@[simp] theorem setWorker_setWorker (s : Server) (t : Tid) (pc pc' : WorkerPc) :
    (s.setWorker t pc).setWorker t pc' = s.setWorker t pc' := by
  simp [setWorker, Function.update_idem]

theorem drain_setWorker (t : Tid) (pc : WorkerPc) (c : ClientRef) (rounds : ℕ) (oks : List Bool)
    (s : Server) :
    drain c rounds oks (s.setWorker t pc) = (drain c rounds oks s).map (·.setWorker t pc) := by
  have hclients : (s.setWorker t pc).clients = s.clients := rfl
  induction rounds generalizing s oks with
  | zero =>
    unfold drain
    rw [hclients]
    split <;> rfl
  | succ rounds ih =>
    unfold drain
    rw [hclients]
    split
    · rfl
    · rename_i sln rest hqueue
      have hpop : (s.setWorker t pc).setClient c { s.clients c with solutionsQueue := rest } =
          (s.setClient c { s.clients c with solutionsQueue := rest }).setWorker t pc := rfl
      dsimp only
      rw [hpop, pushSolution_setWorker]
      exact ih _ _ rfl

theorem handOver_setWorker (t : Tid) (pc : WorkerPc) (c : ClientRef) (ok : Bool) (s : Server) :
    (s.setWorker t pc).handOver c ok = (s.handOver c ok).setWorker t pc := by
  have hclients : (s.setWorker t pc).clients = s.clients := rfl
  unfold handOver
  rw [hclients]
  split
  · rw [pushSolution_setWorker]
    rfl
  · rfl

theorem handOver_calls (s : Server) (c : ClientRef) (ok : Bool) :
    (s.handOver c ok).calls = s.calls := by
  unfold handOver
  split
  · exact pushSolution_calls ..
  · rfl

/-- The first half of a removal, up to the mutex of the client. -/
theorem forget_run {s : Server} {t : Tid} {me c : ClientRef} {e : Errno}
    (hw : s.workers t = .loop me ⟨.removing, e⟩) (hfind : s.findClient (s.clients me).id = some c) :
    Run Server.step s [.find t me e, .unlist t me c, .unmap t me c]
      ((s.forget (s.clients me).id c).setWorker t (.remove me c .lock)) := by
  set s₁ := s.setWorker t (.remove me c .lists) with hs₁
  have hfound : s.step (.find t me e) = some s₁ := by
    refine step_some.2 ⟨hw, ?_⟩
    simp only [next, hfind, hs₁]
  set s₂ : Server := { s₁ with
    compilersMap := s₁.compilersMap.unlist (s₁.clients me).id
    workers := Function.update s₁.workers t (.remove me c .map) } with hs₂
  have hlists : s₁.step (.unlist t me c) = some s₂ := step_some.2 ⟨s.setWorker_same .., rfl⟩
  have hmap : s₂.step (.unmap t me c) =
      some ((s.forget (s.clients me).id c).setWorker t (.remove me c .lock)) := by
    refine step_some.2 ⟨Function.update_self .., ?_⟩
    simp only [next, hs₂, hs₁, forget, setWorker, Function.update_idem]
  exact ((Run.single hfound).snoc hlists).snoc hmap

/-- The thread takes the mutex and pushes what the client is checking. -/
theorem handOver_run {s : Server} {t : Tid} {me c : ClientRef} (ok : Bool) (hg : Guarded s)
    (hw : s.workers t = .remove me c .lock) (hfree : (s.clients c).locked = false) :
    ∃ as, Run Server.step s as (((s.setClient c { s.clients c with locked := true }).handOver c
      ok).setWorker t (.remove me c .drain)) := by
  set s₁ := s.setClient c { s.clients c with locked := true } with hs₁
  have hslot₁ : (s₁.clients c).checkingSolution = (s.clients c).checkingSolution := by
    rw [hs₁, setClient_same]
  have hidle : s.calls (.worker t) = none := hg.no_call (by rw [hw]; rfl)
  cases hslot : (s.clients c).checkingSolution with
  | none =>
    have hlock : s.step (.lock t me c) = some (s₁.setWorker t (.remove me c .drain)) := by
      refine step_some.2 ⟨⟨hw, hfree⟩, ?_⟩
      simp only [next, hslot, hs₁]
    have hkeep : s₁.handOver c ok = s₁ := by simp only [handOver, hslot₁, hslot]
    rw [hkeep]
    exact ⟨_, Run.single hlock⟩
  | some sln =>
    set s₂ := s₁.setWorker t (.remove me c .slot) with hs₂
    have hlock : s.step (.lock t me c) = some (s₂.setCall (.worker t) (some ⟨sln, .lookup⟩)) := by
      refine step_some.2 ⟨⟨hw, hfree⟩, ?_⟩
      simp only [next, hslot, hs₂, hs₁]
    obtain ⟨as, hpush⟩ := push_run (step_guarded hg hlock) hidle ok
    have hclear : (s₂.pushSolution sln ok).2.step (.unslot t me c) =
        some ((s₁.handOver c ok).setWorker t (.remove me c .drain)) := by
      refine step_some.2 ⟨⟨?_, ?_⟩, ?_⟩
      · rw [pushSolution_workers]
        exact s₁.setWorker_same ..
      · rw [pushSolution_calls]
        exact hidle
      · simp only [next, hs₂, pushSolution_setWorker, handOver, hslot₁, hslot]
        exact setWorker_setWorker ((s₁.pushSolution sln ok).2.setClient c
          ((s₁.pushSolution sln ok).2.clients c).clearChecking) t _ _
    exact ⟨_, ((Run.single hlock).trans hpush).snoc hclear⟩

/-- `client_free` finds nothing more to free. -/
theorem free_step {s : Server} {t : Tid} {me c : ClientRef} (hw : s.workers t = .remove me c .free)
    (hqueue : (s.clients c).solutionsQueue = []) (hslot : (s.clients c).checkingSolution = none) :
    s.step (.free t me c) = some (s.setWorker t .done) := by
  have hclient : { s.clients c with solutionsQueue := [], checkingSolution := none } =
      s.clients c := by
    rw [← hqueue, ← hslot]
  refine step_some.2 ⟨hw, ?_⟩
  rw [next, hclient, setClient, Function.update_eq_self]

/-- Without interference the thread that begins a removal does what `removeClient` does. -/
theorem removeClient_run {s s' : Server} {t : Tid} {me c : ClientRef} {e : Errno} {rounds : ℕ}
    {oks : List Bool} (hg : Guarded s) (hw : s.workers t = .loop me ⟨.removing, e⟩)
    (hfind : s.findClient (s.clients me).id = some c)
    (h : s.removeClient (s.clients me).id rounds oks = some s') :
    ∃ as, Run Server.step s as (s'.setWorker t .done) := by
  have hforget := forget_run hw hfind
  set s₁ := s.forget (s.clients me).id c with hs₁
  have hg₁ : Guarded (s₁.setWorker t (.remove me c .lock)) :=
    hforget.invariant hg fun _ _ _ hg hs => step_guarded hg hs
  have hfree : (s₁.clients c).locked = false := hg.registered_unlocked (findClient_some hfind).1
  obtain ⟨as, hover⟩ := handOver_run (oks.headD true) hg₁ (setWorker_same ..) hfree
  set s₂ := (s₁.setClient c { s₁.clients c with locked := true }).handOver c (oks.headD true)
    with hs₂
  have hsame : ((s₁.setWorker t (.remove me c .lock)).setClient c
      { (s₁.setWorker t (.remove me c .lock)).clients c with locked := true }).handOver c
        (oks.headD true) = s₂.setWorker t (.remove me c .lock) :=
    handOver_setWorker t _ c _ (s₁.setClient c { s₁.clients c with locked := true })
  rw [hsame, setWorker_setWorker] at hover
  have hg₂ := hover.invariant hg₁ fun _ _ _ hg hs => step_guarded hg hs
  simp only [removeClient, hfind] at h
  obtain ⟨s₃, hdrain, rfl⟩ := Option.map_eq_some_iff.1 h
  have hdrain' : drain c rounds oks.tail (s₂.setWorker t (.remove me c .drain)) =
      some (s₃.setWorker t (.remove me c .drain)) := by
    rw [drain_setWorker, hdrain]
    rfl
  have hidle : s₂.calls (.worker t) = none := by
    rw [hs₂, handOver_calls]
    exact hg.no_call (by rw [hw]; rfl)
  obtain ⟨⟨bs, hloop⟩, hg₃, hw₃, hidle₃, hempty⟩ :=
    drain_run rounds oks.tail hg₂ (setWorker_same ..) hidle hdrain'
  set s₄ := s₃.setClient c { s₃.clients c with locked := false } with hs₄
  have hfinish : (s₃.setWorker t (.remove me c .drain)).step (.finish t me c) =
      some (s₄.setWorker t (.remove me c .free)) := by
    refine step_some.2 ⟨⟨setWorker_same .., (congrFun hidle₃ _).trans hidle, hempty⟩, ?_⟩
    exact setWorker_setWorker (s₃.setClient c _) t _ _
  have hfreed : (s₄.setWorker t (.remove me c .free)).step (.free t me c) =
      some (s₄.setWorker t .done) := by
    rw [free_step (setWorker_same ..), setWorker_setWorker]
    · change (s₄.clients c).solutionsQueue = []
      rw [hs₄, setClient_same]
      exact hempty
    · change (s₄.clients c).checkingSolution = none
      rw [hs₄, setClient_same]
      exact hg₃.emptied t me c (setWorker_same ..)
  exact ⟨_, (((hforget.trans hover).trans hloop).snoc hfinish).snoc hfreed⟩

end Server

end JudgeServer
