import JudgeServer.Server.Compilers
import JudgeServer.Server.Deadlock

/-! The two models of the server side by side: what takes one step where sections are
atomic takes many where every lock is a step, and comes to the same if no other thread
goes on in between. -/

namespace JudgeServer

open Locking Locking.State Transition

/-- The data that the mutexes guard. -/
def Server.shared (s : Server) (removed : List ClientRef) : Shared where
  serverRunning := s.serverRunning
  compilersMap := s.compilersMap
  clientsMap := s.clientsMap
  clients := s.clients
  nextClient := s.nextClient
  lastClientId := s.lastClientId
  removed := removed

/-- Where the loop over a compiler's list ends. -/
def PushPlace.scanEnd (k : CompilerRef) : Option ClientRef → PushPlace
  | some c => .unlockList k (some c)
  | none => .noClients k

section Push

variable (places : Who → CodePlace) (w : Who) (caller : Caller) (sln : Solution)

/-- Thread `w` is in a call of `push_solution`. -/
def inPush (d : Shared) (owner : Mutex → Option Who) (p : PushPlace) : LockState :=
  running places w d owner (.push caller sln p)

variable {d : Shared} {owner : Mutex → Option Who}

/-- One client is looked at, inside of its mutex. -/
theorem examine_solo (k : CompilerRef) (i : ℕ) (least : UInt32) (best : Option ClientRef)
    {cur : ClientRef} (hfree : owner (.client cur) = none) :
    Solo serverCode w (inPush places w caller sln d owner (.lockCur k i least best cur))
      (inPush places w caller sln d owner
        (if curLoading (d.clients cur) = 0 then .unlockList k (some cur)
        else if curLoading (d.clients cur) ≤ least then
          .scan k (i + 1) (curLoading (d.clients cur)) (some cur)
        else .scan k (i + 1) least best)) :=
  .critical (e := .go) (f := .go) hfree rfl (.act (e := .go) rfl) rfl

/-- The loop chooses the client that `chooseClient` chooses. -/
theorem scan_solo (hfree : ∀ c ∈ d.clientsMap, owner (.client c) = none) (k : CompilerRef)
    (ids : List UInt32) (i : ℕ) (least : UInt32) (best : Option ClientRef)
    (hids : (d.compilersMap.obj k).clientsList.drop i = ids) :
    Solo serverCode w (inPush places w caller sln d owner (.scan k i least best))
      (inPush places w caller sln d owner (.scanEnd k
        (chooseClient d.findClient (fun c => curLoading (d.clients c)) ids least best))) := by
  induction ids generalizing i least best with
  | nil =>
    have hget : (d.compilersMap.obj k).clientsList[i]? = none :=
      List.getElem?_eq_none (List.drop_eq_nil_iff.1 hids)
    have hend : serverCode d (.push caller sln (.scan k i least best)) .go =
        some (.act d (.push caller sln (.scanEnd k best))) := by
      simp only [serverCode, pushNext, hget]
      cases best <;> rfl
    exact Solo.act hend
  | cons id ids ih =>
    have hget : (d.compilersMap.obj k).clientsList[i]? = some id := by
      rw [← List.head?_drop, hids]
      rfl
    have hrest : (d.compilersMap.obj k).clientsList.drop (i + 1) = ids := by
      rw [← List.tail_drop, hids]
      rfl
    cases hfind : d.findClient id with
    | none =>
      have hskip : serverCode d (.push caller sln (.scan k i least best)) .go =
          some (.act d (.push caller sln (.scan k (i + 1) least best))) := by
        simp only [serverCode, pushNext, hget, hfind]
      simp only [chooseClient, hfind]
      exact (Solo.act hskip).trans (ih (i + 1) least best hrest)
    | some cur =>
      have hlook : serverCode d (.push caller sln (.scan k i least best)) .go =
          some (.act d (.push caller sln (.lockCur k i least best cur))) := by
        simp only [serverCode, pushNext, hget, hfind]
      have hround := (Solo.act hlook).trans
        (examine_solo places w caller sln k i least best (hfree cur (findClient_mem hfind)))
      simp only [chooseClient, hfind]
      split_ifs at hround ⊢ with hzero hle
      · exact hround
      · exact hround.trans (ih (i + 1) _ _ hrest)
      · exact hround.trans (ih (i + 1) _ _ hrest)

/-- From the lock of `clients_map_mutex` on, the call chooses a client, or returns. -/
theorem choose_solo (hmap : owner .clientsMap = none) (hlists : ∀ k, owner (.list k) = none)
    (hclients : ∀ c ∈ d.clientsMap, owner (.client c) = none) (k : CompilerRef) :
    Solo serverCode w (inPush places w caller sln d owner (.lockMap k))
      (running places w d owner
        (match chooseClient d.findClient (fun c => curLoading (d.clients c))
            (d.compilersMap.obj k).clientsList INT32_MAX none with
          | some c => .push caller sln (.lockTarget c)
          | none => caller.back)) := by
  obtain ⟨best, hbest⟩ : ∃ best, chooseClient d.findClient (fun c => curLoading (d.clients c))
    (d.compilersMap.obj k).clientsList INT32_MAX none = best := ⟨_, rfl⟩
  set inMap := Function.update owner .clientsMap (some w) with hinMap
  set inList := Function.update inMap (.list k) (some w) with hinList
  have hlist : inMap (.list k) = none := by simp [hinMap, hlists]
  have hfree : ∀ c ∈ d.clientsMap, inList (.client c) = none := by
    intro c hc
    simp [hinList, hinMap, hclients c hc]
  have hscan : Solo serverCode w (inPush places w caller sln d inList (.scan k 0 INT32_MAX none))
      (inPush places w caller sln d inList (.unlockList k best)) := by
    have hloop := scan_solo places w caller sln hfree k _ 0 INT32_MAX none rfl
    rw [List.drop_zero, hbest] at hloop
    cases best with
    | some c => exact hloop
    | none => exact hloop.trans (.act (e := .go) rfl)
  have hchosen : Solo serverCode w (inPush places w caller sln d inMap (.lockList k))
      (inPush places w caller sln d inMap (.unlockMap best)) :=
    .critical (e := .go) (f := .go) hlist rfl hscan rfl
  rw [hbest]
  refine .critical (e := .go) (f := .go) hmap rfl hchosen ?_
  cases best <;> rfl

/-- Without interference the steps of a call do what `pushSolution` does. -/
theorem push_solo {s : Server} (removed : List ClientRef) (hmap : owner .clientsMap = none)
    (hlists : ∀ k, owner (.list k) = none) (hclients : ∀ c ∈ s.clientsMap, owner (.client c) = none)
    (ok : Bool) :
    Solo serverCode w (inPush places w caller sln (s.shared removed) owner .lookup)
      (running places w ((s.pushSolution sln ok).2.shared removed) owner caller.back) := by
  cases hfind : s.compilersMap.find sln.compilerId with
  | none =>
    have hlookup : serverCode (s.shared removed) (.push caller sln .lookup) .go =
        some (.act (s.shared removed) (.push caller sln .noCompiler)) := by
      simp only [serverCode, pushNext, Server.shared, hfind]
    rw [Server.pushSolution_noCompiler ok hfind]
    exact (Solo.act hlookup).trans (.act (e := .go) rfl)
  | some k =>
    have hlookup : serverCode (s.shared removed) (.push caller sln .lookup) .go =
        some (.act (s.shared removed) (.push caller sln (.lockMap k))) := by
      simp only [serverCode, pushNext, Server.shared, hfind]
    have hchoose : Solo serverCode w (inPush places w caller sln (s.shared removed) owner .lookup)
        (running places w (s.shared removed) owner (match s.chooseFrom k with
          | some c => .push caller sln (.lockTarget c)
          | none => caller.back)) :=
      (Solo.act hlookup).trans (choose_solo places w caller sln hmap hlists hclients k)
    cases hfrom : s.chooseFrom k with
    | none =>
      rw [hfrom] at hchoose
      rw [Server.pushSolution_noClients ok hfind hfrom]
      exact hchoose
    | some c =>
      rw [hfrom] at hchoose
      rw [Server.pushSolution_chosen ok hfind hfrom]
      exact hchoose.trans (.critical (e := .go) (f := .go) (hclients c (chooseFrom_mem hfrom)) rfl
        (.act (e := .go) rfl) rfl)

end Push

section Registry

variable (places : Who → CodePlace) (w : Who) {d : Shared} {owner : Mutex → Option Who}

/-- The loop of the registration. -/
theorem announce_solo (me : ClientRef) (compilers : List UInt16)
    (mems : List CompilersMap.Memory) (d : Shared) :
    Solo serverCode w (running places w d owner (.register (.announce me compilers)))
      (running places w
        { d with compilersMap :=
            CompilersMap.announceAll (d.clients me).id compilers mems d.compilersMap }
        owner (.register (.announce me []))) := by
  induction compilers generalizing mems d with
  | nil => exact Solo.refl _
  | cons id ids ih =>
    cases mems with
    | nil => exact (Solo.act (e := .memory ⟨0, 0, []⟩) rfl).trans (ih [] _)
    | cons mem mems => exact (Solo.act (e := .memory mem) rfl).trans (ih mems _)

/-- A registration without interference. -/
theorem register_solo {s : Server} (removed : List ClientRef) (hmap : owner .clientsMap = none)
    (hcompilers : owner .compilersMap = none) (t : Tid) (compilers : List UInt16)
    (order : List ClientRef) (mems : List CompilersMap.Memory) :
    Solo serverCode w
      (running places w (s.shared removed) owner (.register (.lockClients compilers)))
      (running places w (((s.next (.register t compilers order)).next
          (.announce t s.nextClient compilers mems)).shared removed)
        owner (.loop s.nextClient ⟨.top, .other 0⟩ .outside)) := by
  have hcreate : Solo serverCode w
      (running places w (s.shared removed) owner (.register (.lockClients compilers)))
      (running places w ((s.next (.register t compilers order)).shared removed) owner
        (.register (.lockCompilers s.nextClient compilers))) :=
    .critical (e := .go) (f := .go) hmap rfl (.act (e := .order order) rfl) rfl
  exact hcreate.trans (.critical (e := .go) (f := .go) hcompilers rfl
    (announce_solo places w s.nextClient compilers mems _) rfl)

/-- Deleting an id from one list after the other. -/
theorem foldl_unlist (id : UInt32) (ks : List CompilerRef) (d : Shared) :
    ks.foldl (fun d k => d.unlist k id) d = { d with compilersMap := { d.compilersMap with
      obj := fun k => if k ∈ ks then { d.compilersMap.obj k with
          clientsList := (d.compilersMap.obj k).clientsList.filter (· ≠ id) }
        else d.compilersMap.obj k } } := by
  induction ks generalizing d with
  | nil => simp
  | cons k ks ih =>
    rw [List.foldl_cons, ih]
    simp only [Shared.unlist]
    congr 2
    funext j
    by_cases hj : j = k
    · subst hj
      by_cases hmem : j ∈ ks <;> simp [hmem, List.filter_filter]
    · simp [hj]

/-- Every compiler that was created is in the map. -/
def CompilersMap.Complete (m : CompilersMap) : Prop := ∀ k, k ∈ m.chain ↔ k < m.next

theorem CompilersMap.Complete.announce {m : CompilersMap} (h : m.Complete) (clientId : UInt32)
    (compilerId : UInt16) (mem : CompilersMap.Memory) :
    (m.announce clientId compilerId mem).Complete := by
  unfold CompilersMap.announce
  split
  · exact h
  · intro k
    change k ∈ rehash mem.order (m.next :: m.chain) ↔ k < m.next + 1
    rw [mem_rehash, List.mem_cons, h k, Nat.lt_succ_iff_lt_or_eq, or_comm]

theorem CompilersMap.Complete.announceAll {m : CompilersMap} (h : m.Complete) (clientId : UInt32)
    (compilers : List UInt16) (mems : List CompilersMap.Memory) :
    (CompilersMap.announceAll clientId compilers mems m).Complete := by
  induction compilers generalizing m mems with
  | nil => exact h
  | cons id ids ih =>
    cases mems with
    | nil => exact ih (h.announce clientId id _) []
    | cons mem mems => exact ih (h.announce clientId id mem) mems

theorem reaches_complete {db : Table} {as : List Action} {s : Server} (h : Reaches db as s) :
    s.compilersMap.Complete := by
  refine h.invariant (I := fun s => s.compilersMap.Complete) (fun k => ?_) ?_
  · simp [Server.init]
  intro s a s' hc hs
  obtain ⟨-, heq⟩ := Server.step_some.1 hs
  cases a with
  | announce t me compilers mems =>
    subst heq
    exact hc.announceAll _ compilers mems
  | unlist t me c =>
    subst heq
    exact hc
  | _ => rwa [compilersMap_same hs (by simp) (by simp)]

/-- The loop of `remove_client` over the compilers. -/
theorem visit_solo (me c : ClientRef) (hlists : ∀ k, owner (.list k) = none)
    (ks : List CompilerRef) (d : Shared) :
    Solo serverCode w (running places w d owner (.remove me c (.visit ks)))
      (running places w (ks.foldl (fun d' k => d'.unlist k (d.clients me).id) d) owner
        (.remove me c (.visit []))) := by
  induction ks generalizing d with
  | nil => exact Solo.refl _
  | cons k ks ih =>
    have hround : Solo serverCode w (running places w d owner (.remove me c (.visit (k :: ks))))
        (running places w (d.unlist k (d.clients me).id) owner (.remove me c (.visit ks))) :=
      .critical (e := .go) (f := .go) (hlists k) rfl (.act (e := .go) rfl) rfl
    exact hround.trans (ih (d.unlist k (d.clients me).id))

/-- The first half of `remove_client` without interference. -/
theorem unlist_solo {db : Table} {as : List Action} {s : Server} (h : Reaches db as s)
    (removed : List ClientRef) (hcompilers : owner .compilersMap = none)
    (hlists : ∀ k, owner (.list k) = none) (t : Tid) (me c : ClientRef) :
    Solo serverCode w (running places w (s.shared removed) owner (.remove me c .lockCompilers))
      (running places w ((s.next (.unlist t me c)).shared removed) owner
        (.remove me c .lockClients)) := by
  set inMap := Function.update owner .compilersMap (some w) with hinMap
  have hfree : ∀ k, inMap (.list k) = none := by
    intro k
    simp [hinMap, hlists]
  have hvisit : Solo serverCode w
      (running places w (s.shared removed) inMap
        (.remove me c (.visit (List.range s.compilersMap.next))))
      (running places w ((List.range s.compilersMap.next).foldl
        (fun d k => d.unlist k (s.clients me).id) (s.shared removed)) inMap
        (.remove me c (.visit []))) :=
    visit_solo places w me c hfree _ _
  have hdata : (List.range s.compilersMap.next).foldl (fun d k => d.unlist k (s.clients me).id)
      (s.shared removed) = (s.next (.unlist t me c)).shared removed := by
    rw [foldl_unlist]
    simp only [Server.shared, Server.next, CompilersMap.unlist, List.mem_range,
      reaches_complete h _]
  rw [hdata] at hvisit
  exact .critical (e := .go) (f := .go) hcompilers rfl hvisit rfl

end Registry

end JudgeServer
