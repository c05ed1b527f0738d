import JudgeServer.Library.Placement
import JudgeServer.Server.Mutexes

/-! Where the solution objects are: in the array that the polling thread dispatches,
in a call of `push_solution`, in a queue or in a checking slot. Every step moves at
most one of them, so no object is ever at two places. -/

namespace JudgeServer

open Transition Placement

inductive Place
  | todo
  | hand (who : Who)
  | queue (c : ClientRef)
  | slot (c : ClientRef)
  deriving DecidableEq, Repr

namespace Server

/-- While `remove_client` is inside the mutex it has taken over what the slot points
to, so the slot of a locked client does not count. -/
def holds (s : Server) : Place → List Solution
  | .todo => match s.poll with
    | .dispatch rest => rest
    | _ => []
  | .hand who => ((s.calls who).map PushCall.sln).toList
  | .queue c => (s.clients c).solutionsQueue
  | .slot c => if (s.clients c).locked then [] else (s.clients c).checkingSolution.toList

/-- The objects that a step allocates for the dispatch loop. -/
def issues (s : Server) : Action → List Solution
  | .query e ok =>
    match e.stmt with
    | some stmt =>
      match e.next (ok && s.conn = .open) (s.query stmt ok).db with
      | .ret code rows => if code = 0 then decodeRows s.nextAddr rows else []
      | _ => []
    | none => []
  | _ => []

theorem holds_congr {s s' : Server} (hpoll : s'.poll = s.poll) (hcalls : s'.calls = s.calls)
    (hclients : s'.clients = s.clients) : s'.holds = s.holds := by
  funext r
  cases r <;> simp only [holds, hpoll, hcalls, hclients]

@[simp] theorem holds_setWorker (s : Server) (t : Tid) (pc : WorkerPc) :
    (s.setWorker t pc).holds = s.holds := holds_congr rfl rfl rfl

@[simp] theorem holds_query (s : Server) (stmt : Stmt) (ok : Bool) :
    (s.query stmt ok).holds = s.holds := holds_congr rfl rfl rfl

@[simp] theorem holds_postFailed (s : Server) (sln : Solution) (ok : Bool) :
    (s.postFailed sln ok).holds = s.holds := holds_congr rfl rfl rfl

@[simp] theorem holds_postEffect (s : Server) (l : Locals) (ev : LoopEv) :
    (s.postEffect l ev).holds = s.holds :=
  holds_congr (postEffect_poll s l ev) (postEffect_calls s l ev) (postEffect_clients s l ev)

theorem holds_setClient_rest {s : Server} {c : ClientRef} {client : Client} {r : Place}
    (hq : r ≠ .queue c) (hs : r ≠ .slot c) : (s.setClient c client).holds r = s.holds r := by
  cases r with
  | queue d =>
    have hd : d ≠ c := fun heq => hq (by rw [heq])
    simp only [holds, s.setClient_other client hd]
  | slot d =>
    have hd : d ≠ c := fun heq => hs (by rw [heq])
    simp only [holds, s.setClient_other client hd]
  | _ => rfl

@[simp] theorem holds_setClient_queue (s : Server) (c : ClientRef) (client : Client) :
    (s.setClient c client).holds (.queue c) = client.solutionsQueue := by
  simp only [holds, setClient_same]

@[simp] theorem holds_setClient_slot (s : Server) (c : ClientRef) (client : Client) :
    (s.setClient c client).holds (.slot c) =
      if client.locked then [] else client.checkingSolution.toList := by
  simp only [holds, setClient_same]

/-- A queue changes and nothing else. -/
theorem holds_setQueue_rest {s : Server} {c : ClientRef} {queue : List Solution} {r : Place}
    (h : r ≠ .queue c) :
    (s.setClient c { s.clients c with solutionsQueue := queue }).holds r = s.holds r := by
  by_cases hs : r = .slot c
  · subst hs
    rw [holds_setClient_slot]
    rfl
  · exact holds_setClient_rest h hs

theorem holds_setCall_rest {s : Server} {who : Who} {call : Option PushCall} {r : Place}
    (h : r ≠ .hand who) : (s.setCall who call).holds r = s.holds r := by
  cases r with
  | hand w =>
    have hw : w ≠ who := fun heq => h (by rw [heq])
    simp only [holds, s.setCall_other call hw]
  | _ => rfl

@[simp] theorem holds_setCall_hand (s : Server) (who : Who) (call : Option PushCall) :
    (s.setCall who call).holds (.hand who) = (call.map PushCall.sln).toList := by
  simp only [holds, setCall_same]

theorem slot_empty {client : Client} (h : client.checkingSolution = none) :
    (if client.locked then [] else client.checkingSolution.toList) = [] := by
  rw [h]
  split_ifs <;> rfl

/-- A client changes: what its queue and its slot lose is dropped. -/
theorem shift_setClient {s : Server} {c : ClientRef} {client : Client} {fresh : List Solution}
    (hq : client.solutionsQueue.Subperm (s.holds (.queue c)))
    (hs : (if client.locked then [] else client.checkingSolution.toList).Subperm
      (s.holds (.slot c))) : Shift s.holds fresh (s.setClient c client).holds := by
  refine .drop fun r => ?_
  by_cases hrq : r = .queue c
  · subst hrq
    rwa [holds_setClient_queue]
  by_cases hrs : r = .slot c
  · subst hrs
    rwa [holds_setClient_slot]
  · rw [holds_setClient_rest hrq hrs]

/-- A call goes on with its solution, or it ends. -/
theorem shift_setCall {s : Server} {who : Who} {sln : Solution} {pc : PushPc}
    {call : Option PushCall} {fresh : List Solution} (hwho : s.calls who = some ⟨sln, pc⟩)
    (hcall : ∀ k, call = some k → k.sln = sln) : Shift s.holds fresh (s.setCall who call).holds := by
  refine .drop fun r => ?_
  by_cases hr : r = .hand who
  · subst hr
    rw [holds_setCall_hand]
    cases call with
    | none => exact List.nil_subperm
    | some k =>
      have hk := hcall k rfl
      simp [holds, hwho, hk]
  · rw [holds_setCall_rest hr]

/-- The polling thread goes on with no solutions to dispatch. -/
theorem shift_poll {s s' : Server} {fresh : List Solution} (htodo : s'.holds .todo = [])
    (hcalls : s'.calls = s.calls) (hclients : s'.clients = s.clients) :
    Shift s.holds fresh s'.holds := by
  refine .drop fun r => ?_
  cases r with
  | todo =>
    rw [htodo]
    exact List.nil_subperm
  | _ => simp only [holds, hcalls, hclients, List.Subperm.refl]

/-- What `solutions_extract_new` returns goes into the array to dispatch. -/
theorem shift_query {s : Server} {e : ExtractPc} {ok : Bool} (hen : s.enabled (.query e ok)) :
    Shift s.holds (s.issues (.query e ok)) (s.next (.query e ok)).holds := by
  obtain ⟨stmt, hstmt, heq⟩ := next_query hen
  rw [heq]
  have hissues : s.issues (.query e ok) =
      ((s.query stmt ok).afterQuery (e.next (ok && s.conn = .open) (s.query stmt ok).db)).holds
        .todo := by
    simp only [issues, hstmt]
    generalize e.next (ok && s.conn = .open) (s.query stmt ok).db = e'
    cases e' with
    | ret code rows =>
      simp only [afterQuery, holds]
      split_ifs <;> rfl
    | _ => rfl
  refine .issue .todo ?_ fun r hr => ?_
  · rw [hissues]
    exact (List.sublist_append_left _ _).subperm
  · cases r with
    | todo => exact absurd rfl hr
    | _ => simp [holds, query, List.Subperm.refl]

theorem shift_loop {s : Server} {t : Tid} {me : ClientRef} {l : Locals} {ev : LoopEv}
    {fresh : List Solution} (hen : s.enabled (.loop t me l ev)) :
    Shift s.holds fresh (s.next (.loop t me l ev)).holds := by
  obtain ⟨c, l', hstep, heq⟩ := next_loop hen
  obtain ⟨-, hadmit, -⟩ := hen
  rw [heq, holds_setWorker, ← holds_postEffect s l ev]
  have hid : c.locked = (s.clients me).locked := (loopStep_identity hstep).2
  have hq : (s.postEffect l ev).holds (.queue me) = (s.clients me).solutionsQueue := by
    simp only [holds, postEffect_clients]
  have hslot : (s.postEffect l ev).holds (.slot me) =
      if (s.clients me).locked then [] else (s.clients me).checkingSolution.toList := by
    simp only [holds, postEffect_clients]
  cases loopStep_holding hstep with
  | @pop _ sln hqueue hslot' =>
    have hfree : (s.clients me).locked = false := by simpa [admits] using hadmit
    refine .move (.queue me) (.slot me) sln (by simp) ?_ ?_ fun r hp hr => ?_
    · rw [holds_setClient_queue, hq, hqueue]
    · have hslot' : c.checkingSolution = some sln := hslot'
      rw [holds_setClient_slot, hid, hfree, hslot']
      exact (List.sublist_append_left [sln] _).subperm
    · rw [holds_setClient_rest hp hr]
  | clear heq =>
    obtain rfl := heq
    refine shift_setClient ?_ ?_
    · rw [hq]
      exact List.Subperm.refl _
    · rw [slot_empty rfl]
      exact List.nil_subperm
  | push => simp [admits] at hadmit
  | same hsame =>
    refine shift_setClient ?_ ?_
    · rw [hq, hsame.queue]
    · rw [hslot, hsame.slot, hsame.locked]

end Server

/-- What a step does to the solution objects. -/
theorem step_shift {s s' : Server} {a : Action} (h : Guarded s) (hs : s.step a = some s') :
    Shift s.holds (s.issues a) s'.holds := by
  obtain ⟨hen, rfl⟩ := Server.step_some.1 hs
  cases a with
  | accept => exact .of_eq (Server.holds_congr rfl rfl rfl)
  | stop => exact .of_eq (Server.holds_congr rfl rfl rfl)
  | submit row =>
    simp only [Server.next]
    split <;> exact .of_eq (Server.holds_congr rfl rfl rfl)
  | register t compilers order =>
    have hclient : Shift s.holds (s.issues (.register t compilers order))
        (s.setClient s.nextClient (clientCreate s.lastClientId)).holds :=
      Server.shift_setClient List.nil_subperm List.nil_subperm
    have heq : (s.next (.register t compilers order)).holds =
        (s.setClient s.nextClient (clientCreate s.lastClientId)).holds :=
      Server.holds_congr rfl rfl rfl
    rwa [heq]
  | announce => exact .of_eq (Server.holds_congr rfl rfl rfl)
  | loop t me l ev => exact Server.shift_loop hen
  | find t me errno =>
    simp only [Server.next]
    split <;> exact .of_eq (Server.holds_congr rfl rfl rfl)
  | unlist => exact .of_eq (Server.holds_congr rfl rfl rfl)
  | unmap => exact .of_eq (Server.holds_congr rfl rfl rfl)
  | lock t me c =>
    obtain ⟨hw, hfree⟩ := hen
    have hcall := h.no_call (t := t) (by rw [hw]; rfl)
    simp only [Server.next]
    split
    · rename_i sln hslot
      refine .move (.slot c) (.hand (.worker t)) sln (by simp) ?_ ?_ fun r hr hh => ?_
      · rw [Server.holds_setCall_rest (by simp), Server.holds_setWorker,
          Server.holds_setClient_slot]
        simp [Server.holds, hfree, hslot, List.Subperm.refl]
      · rw [Server.holds_setCall_hand]
        exact (List.sublist_append_left [sln] _).subperm
      · rw [Server.holds_setCall_rest hh, Server.holds_setWorker]
        by_cases hrq : r = .queue c
        · subst hrq
          rw [Server.holds_setClient_queue]
          exact List.Subperm.refl _
        · rw [Server.holds_setClient_rest hrq hr]
    · rw [Server.holds_setWorker]
      exact Server.shift_setClient (List.Subperm.refl _) List.nil_subperm
  | unslot t me c =>
    refine Server.shift_setClient (List.Subperm.refl _) ?_
    rw [Server.slot_empty rfl]
    exact List.nil_subperm
  | pop t me c sln rest =>
    obtain ⟨-, -, hqueue⟩ := hen
    change Shift s.holds _
      ((s.setClient c { s.clients c with solutionsQueue := rest }).setCall (.worker t)
        (some ⟨sln, .lookup⟩)).holds
    refine .move (.queue c) (.hand (.worker t)) sln (by simp) ?_ ?_ fun r hr hh => ?_
    · rw [Server.holds_setCall_rest (by simp), Server.holds_setClient_queue]
      simp [Server.holds, hqueue, List.Subperm.refl]
    · rw [Server.holds_setCall_hand]
      exact (List.sublist_append_left [sln] _).subperm
    · rw [Server.holds_setCall_rest hh, Server.holds_setQueue_rest hr]
  | finish t me c =>
    obtain ⟨hw, -, -⟩ := hen
    have hslot := h.emptied t me c hw
    refine Server.shift_setClient (List.Subperm.refl _) ?_
    change (s.clients c).checkingSolution.toList.Subperm _
    rw [hslot]
    exact List.nil_subperm
  | free t me c =>
    refine Server.shift_setClient List.nil_subperm ?_
    rw [Server.slot_empty rfl]
    exact List.nil_subperm
  | lookup who sln =>
    simp only [Server.next]
    split <;> exact Server.shift_setCall hen (by simp)
  | noCompiler who sln ok =>
    rw [← Server.holds_postFailed s sln ok]
    exact Server.shift_setCall hen (by simp)
  | choose who sln k ok =>
    simp only [Server.next]
    split
    · exact Server.shift_setCall hen (by simp)
    · rw [← Server.holds_postFailed s sln ok]
      exact Server.shift_setCall hen (by simp)
  | append who sln c =>
    obtain ⟨hcall, hfree⟩ := hen
    change Shift s.holds _ ((s.setClient c ((s.clients c).push sln)).setCall who none).holds
    refine .move (.hand who) (.queue c) sln (by simp) ?_ ?_ fun r hh hr => ?_
    · rw [Server.holds_setCall_hand]
      simp [Server.holds, hcall, List.Subperm.refl]
    · rw [Server.holds_setCall_rest (by simp), Server.holds_setClient_queue]
      exact (List.perm_append_singleton sln _).subperm
    · rw [Server.holds_setCall_rest hh, Client.push, Server.holds_setQueue_rest hr]
  | query e ok => exact Server.shift_query hen
  | dispatch sln rest =>
    obtain ⟨hpoll, hcall⟩ := hen
    refine .move .todo (.hand .poll) sln (by simp) ?_ ?_ fun r hr hh => ?_
    · simp [Server.next, Server.holds, Server.setCall, hpoll, List.Subperm.refl]
    · simp only [Server.next, Server.holds_setCall_hand]
      exact (List.sublist_append_left [sln] _).subperm
    · simp only [Server.next, Server.holds_setCall_rest hh]
      cases r with
      | todo => exact absurd rfl hr
      | _ => exact List.Subperm.refl _
  | initDb ok => exact Server.shift_poll (by cases ok <;> rfl) rfl rfl
  | check =>
    refine Server.shift_poll ?_ rfl rfl
    simp only [Server.next, Server.holds]
    split_ifs <;> rfl
  | lockDb => exact Server.shift_poll rfl rfl rfl
  | again => exact Server.shift_poll rfl rfl rfl
  | closeDb => exact Server.shift_poll rfl rfl rfl

/-! Over a run no object is at two places. -/

theorem issues_addrs {s : Server} {a : Action} :
    (s.issues a).map Solution.addr = List.range' s.nextAddr (s.issues a).length := by
  unfold Server.issues
  split
  · split
    · split
      · split_ifs
        · rw [decodeRows_addrs, ← List.length_map Solution.addr, decodeRows_addrs, List.length_range']
        · rfl
      · rfl
    · rfl
  · rfl

/-- The addresses given out so far stay below the next one. -/
theorem nextAddr_step {s s' : Server} {a : Action} (hs : s.step a = some s') :
    s.nextAddr + (s.issues a).length ≤ s'.nextAddr := by
  obtain ⟨hen, rfl⟩ := Server.step_some.1 hs
  cases a with
  | query e ok =>
    obtain ⟨stmt, hstmt, heq⟩ := Server.next_query hen
    rw [heq]
    simp only [Server.issues, hstmt]
    generalize e.next (ok && s.conn = .open) (s.query stmt ok).db = e'
    cases e' with
    | ret code rows =>
      have hlen : (decodeRows s.nextAddr rows).length = rows.length := by
        have h := congrArg List.length (decodeRows_addrs s.nextAddr rows)
        simpa using h
      simp only [Server.afterQuery, Server.query]
      split_ifs
      · rw [hlen]
      · simp
    | _ => exact le_rfl
  | loop t me l ev =>
    obtain ⟨c, l', -, heq⟩ := Server.next_loop hen
    rw [heq]
    exact (s.postEffect_nextAddr l ev).ge
  | submit | find | lock | lookup | choose =>
    simp only [Server.next]
    split <;> exact le_rfl
  | _ => exact le_rfl

structure Dispatched (s : Server) : Prop where
  exclusive : Exclusive fun r => (s.holds r).map Solution.addr
  below : ∀ r, ∀ sln ∈ s.holds r, sln.addr < s.nextAddr

theorem dispatched_init (db : Table) : Dispatched (.init db) := by
  have hempty : (Server.init db).holds = fun _ => [] := by
    funext r
    cases r <;> rfl
  refine ⟨?_, ?_⟩ <;> simp only [hempty]
  · exact ⟨fun _ => List.nodup_nil, fun _ _ _ => by simp⟩
  · simp

theorem step_dispatched {s s' : Server} {a : Action} (hg : Guarded s) (h : Dispatched s)
    (hs : s.step a = some s') : Dispatched s' := by
  have hshift := step_shift hg hs
  have hnext := nextAddr_step hs
  refine ⟨?_, fun r sln hsln => ?_⟩
  · refine (hshift.map Solution.addr).exclusive h.exclusive ?_ fun x hx r hr => ?_
    · rw [issues_addrs]
      exact List.nodup_range'
    · rw [issues_addrs, List.mem_range'] at hx
      obtain ⟨sln, hsln, rfl⟩ := List.mem_map.1 hr
      have := h.below r sln hsln
      omega
  · rcases hshift.mem hsln with ⟨q, hq⟩ | hnew
    · have := h.below q sln hq
      omega
    · have hx := List.mem_map_of_mem (f := Solution.addr) hnew
      rw [issues_addrs, List.mem_range'] at hx
      omega

/-- The solutions of the clients in `clients_map`. -/
def Server.registered (s : Server) : List Solution :=
  s.clientsMap.flatMap fun c =>
    (s.clients c).solutionsQueue ++ (s.clients c).checkingSolution.toList

/-- A thread is dispatching `sln` and has not pushed it yet. -/
def Server.Dispatching (s : Server) (sln : Solution) : Prop :=
  (∃ who pc, s.calls who = some ⟨sln, pc⟩) ∨ ∃ rest, s.poll = .dispatch rest ∧ sln ∈ rest

/-- No object occurs twice with the registered clients, and none that is still being
dispatched occurs there at all. -/
structure DispatchedOnce (s : Server) : Prop where
  once : (s.registered.map Solution.addr).Nodup
  notYet : ∀ sln, s.Dispatching sln → sln.addr ∉ s.registered.map Solution.addr

def clientPlaces (c : ClientRef) : List Place := [.queue c, .slot c]

theorem clientPlaces_nodup {cs : List ClientRef} (h : cs.Nodup) :
    (cs.flatMap clientPlaces).Nodup := by
  refine List.nodup_flatMap.2 ⟨fun c _ => by simp [clientPlaces], h.imp fun {c d} hne r hc hd => ?_⟩
  simp only [clientPlaces, List.mem_cons, List.not_mem_nil, or_false] at hc hd
  rcases hc with rfl | rfl <;> rcases hd with hd | hd <;> cases hd <;> exact hne rfl

/-- A registered client is not locked, so its slot counts. -/
theorem registered_addrs {s : Server} (hg : Guarded s) :
    s.registered.map Solution.addr =
      (s.clientsMap.flatMap clientPlaces).flatMap fun r => (s.holds r).map Solution.addr := by
  rw [Server.registered, List.map_flatMap, List.flatMap_assoc]
  apply List.flatMap_congr
  intro c hc
  simp [clientPlaces, Server.holds, hg.registered_unlocked hc]

theorem reaches_dispatched {db : Table} {as : List Action} {s : Server} (h : Reaches db as s) :
    Guarded s ∧ Dispatched s := by
  refine h.invariant (I := fun s => Guarded s ∧ Dispatched s)
    ⟨guarded_init db, dispatched_init db⟩ ?_
  intro s a s' ⟨hg, hd⟩ hs
  exact ⟨step_guarded hg hs, step_dispatched hg hd hs⟩

/-- No dispatch is duplicated in any reachable state. -/
theorem dispatched_once (db : Table) (as : List Action) (s : Server) (h : Reaches db as s) :
    DispatchedOnce s := by
  obtain ⟨hg, hd⟩ := reaches_dispatched h
  refine ⟨?_, fun sln hsln hmem => ?_⟩
  · rw [registered_addrs hg]
    exact hd.exclusive.nodup_flatMap (clientPlaces_nodup hg.nodup)
  · rw [registered_addrs hg] at hmem
    obtain ⟨r, hr, hat⟩ := List.mem_flatMap.1 hmem
    have hclient : ∃ c, r = .queue c ∨ r = .slot c := by
      obtain ⟨c, -, hc⟩ := List.mem_flatMap.1 hr
      exact ⟨c, by simpa [clientPlaces] using hc⟩
    -- the thread holds it at a place that is no client's
    have happart : ∀ q, sln ∈ s.holds q → q ≠ r → False := fun q hq hne =>
      hd.exclusive.apart q r hne (List.mem_map_of_mem hq) hat
    rcases hsln with ⟨who, pc, hcall⟩ | ⟨rest, hpoll, hrest⟩
    · apply happart (.hand who)
      · simp [Server.holds, hcall]
      · rcases hclient with ⟨c, rfl | rfl⟩ <;> simp
    · apply happart .todo
      · simpa [Server.holds, hpoll] using hrest
      · rcases hclient with ⟨c, rfl | rfl⟩ <;> simp

/-- A client joins, a row is extracted and pushed to it. -/
def pushRun : List Action :=
  joining 0 0 ++ starting ++ extracting [sampleRow 1] ++
    [.dispatch (decodeRow 0 (sampleRow 1)) []] ++ pushing .poll (decodeRow 0 (sampleRow 1)) 0

theorem dispatched_once_pushed :
    ∃ s, Reaches oneNewRow pushRun s ∧ s.registered = [decodeRow 0 (sampleRow 1)] ∧
      DispatchedOnce s :=
  ⟨_, Run.iff_foldlM.2 rfl, rfl, dispatched_once oneNewRow pushRun _ (Run.iff_foldlM.2 rfl)⟩

end JudgeServer
