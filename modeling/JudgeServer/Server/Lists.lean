import JudgeServer.Server.Ids

/-! The lists of the compilers. An id is put into a list after its client has come into
`clients_map`, and it is deleted from all lists before a client with this id goes out.
Ids may be in use more than once: the entries of `clients_map` with an id are at least
as many as the threads that have registered a client with it and not deleted one yet. -/

namespace JudgeServer

open Transition

/-- The client of a thread whose id may stand in the lists. -/
def WorkerPc.lists : WorkerPc → Option ClientRef
  | .loop me _ => some me
  | .remove me _ .lists => some me
  | _ => none

theorem serves_of_lists {pc : WorkerPc} {me : ClientRef} (h : pc.lists = some me) :
    pc.serves = some me := by
  unfold WorkerPc.lists at h
  split at h <;> first | exact h | cases h

namespace Server

/-- The thread has registered a client with this id and not deleted one yet. -/
def Serves (s : Server) (t : Tid) (id : UInt32) : Prop :=
  ∃ me, (s.workers t).serves = some me ∧ (s.clients me).id = id

/-- How many entries of `clients_map` have this id. -/
def entries (s : Server) (id : UInt32) : ℕ := s.clientsMap.countP fun c => (s.clients c).id = id

end Server

/-- `unlist` when it has cleaned these lists only. -/
def CompilersMap.unlistOf (m : CompilersMap) (clientId : UInt32) (cleaned : List CompilerRef) :
    CompilersMap :=
  { m with obj := fun k => if k ∈ cleaned then (m.unlist clientId).obj k else m.obj k }

/-- What other threads see of `compilers_map` while a thread is at its section under
`compilers_map_mutex`: some rounds of the loop over the announced ids are done, or some
lists are already cleaned. -/
inductive Visible (s : Server) : CompilersMap → Prop
  | whole : Visible s s.compilersMap
  | announcing {t : Tid} {me : ClientRef} {compilers : List UInt16} (rounds : ℕ)
      (mems : List CompilersMap.Memory) : s.workers t = .announce me compilers →
      Visible s (.announceAll (s.clients me).id (compilers.take rounds) mems s.compilersMap)
  | cleaning {t : Tid} {me c : ClientRef} (cleaned : List CompilerRef) :
      s.workers t = .remove me c .lists →
      Visible s (s.compilersMap.unlistOf (s.clients me).id cleaned)

/-- No id of a list lacks a client in `clients_map`, so the look-ups of `push_solution`
and of `remove_client` never fail. -/
structure ListsRegistered (s : Server) : Prop where
  listed : ∀ m, Visible s m → ∀ k ∈ m.chain, ∀ id ∈ (m.obj k).clientsList,
    ∃ c ∈ s.clientsMap, (s.clients c).id = id
  consistent : ∀ who sln k, s.calls who = some ⟨sln, .choose k⟩ →
    ∀ m, Visible s m → ∀ id ∈ (m.obj k).clientsList, s.findClient id ≠ none
  present : ∀ t me errno, s.workers t = .loop me ⟨.removing, errno⟩ →
    s.findClient (s.clients me).id ≠ none

/-- `counted` is what survives when ids clash: a removal may delete another client with
the same id, but never more of them than threads have given up. -/
structure Listed (s : Server) : Prop where
  born : ∀ t me, (s.workers t).serves = some me → me < s.nextClient
  found : ∀ t me c p, s.workers t = .remove me c p → (s.workers t).serves = some me →
    (s.clients c).id = (s.clients me).id
  counted : ∀ id (T : Finset Tid), (∀ t ∈ T, s.Serves t id) → T.card ≤ s.entries id
  listed : ∀ k ∈ s.compilersMap.chain, ∀ id ∈ (s.compilersMap.obj k).clientsList,
    ∃ t me, (s.workers t).lists = some me ∧ (s.clients me).id = id
  choosing : ∀ who sln k, s.calls who = some ⟨sln, .choose k⟩ → k ∈ s.compilersMap.chain

theorem listed_init (db : Table) : Listed (.init db) where
  born := by simp [Server.init, WorkerPc.serves]
  found := by simp [Server.init]
  counted := by
    intro id T hT
    have hempty : T = ∅ := by
      rw [Finset.eq_empty_iff_forall_notMem]
      intro t ht
      obtain ⟨me, hme, -⟩ := hT t ht
      cases hme
    simp [hempty]
  listed := by simp [Server.init]
  choosing := by simp [Server.init]

theorem findClient_eq_none {s : Server} {id : UInt32} :
    s.findClient id = none ↔ ∀ c ∈ s.clientsMap, (s.clients c).id ≠ id := by
  simp [Server.findClient, List.find?_eq_none]

namespace Listed

variable {s s' : Server}

/-- A thread that serves an id finds a client with it. -/
theorem exists_entry (h : Listed s) {t : Tid} {id : UInt32} (ht : s.Serves t id) :
    ∃ c ∈ s.clientsMap, (s.clients c).id = id := by
  have hcard := h.counted id {t} (by simpa using ht)
  rw [Finset.card_singleton] at hcard
  obtain ⟨c, hc, hid⟩ := List.countP_pos_iff.1 hcard
  exact ⟨c, hc, by simpa using hid⟩

end Listed

/-! What a step does to the registry. -/

/-- The ids of the clients that exist do not change. -/
theorem id_step {s s' : Server} {a : Action} {c : ClientRef} (hs : s.step a = some s')
    (hc : c < s.nextClient) : (s'.clients c).id = (s.clients c).id := by
  by_cases hclient : s.client a = some c
  swap
  · rw [Server.clients_other hs hclient]
  obtain ⟨hen, rfl⟩ := Server.step_some.1 hs
  cases a with
  | register t compilers order =>
    obtain rfl := Option.some.inj hclient
    exact absurd hc (Nat.lt_irrefl _)
  | loop t me l ev =>
    obtain rfl := Option.some.inj hclient
    obtain ⟨d, l', hstep, heq⟩ := Server.next_loop hen
    rw [heq]
    change (((s.postEffect l ev).setClient me d).clients me).id = _
    rw [Server.setClient_same]
    exact (loopStep_identity hstep).1
  | lock t me d =>
    obtain rfl := Option.some.inj hclient
    simp only [Server.next]
    split <;> simp [Server.setCall, Server.setWorker, Server.setClient]
  | unslot t me d =>
    obtain rfl := Option.some.inj hclient
    simp [Server.next, Server.setWorker, Server.setClient, Client.clearChecking]
  | pop t me d sln rest =>
    obtain rfl := Option.some.inj hclient
    simp [Server.next, Server.setCall, Server.setClient]
  | finish t me d | free t me d =>
    obtain rfl := Option.some.inj hclient
    simp [Server.next, Server.setWorker, Server.setClient]
  | append who sln d =>
    obtain rfl := Option.some.inj hclient
    simp [Server.next, Server.setCall, Server.setClient, Client.push]
  | _ => cases hclient

theorem nextClient_step {s s' : Server} {a : Action} (hs : s.step a = some s') :
    s.nextClient ≤ s'.nextClient := by
  obtain ⟨hen, rfl⟩ := Server.step_some.1 hs
  cases a with
  | register t compilers order => exact Nat.le_succ _
  | loop t me l ev =>
    obtain ⟨c, l', -, heq⟩ := Server.next_loop hen
    rw [heq]
    exact s.postEffect_induct (P := fun r => s.nextClient ≤ r.nextClient) l ev le_rfl fun _ _ => le_rfl
  | submit | find | lock | lookup | choose =>
    simp only [Server.next]
    split <;> exact le_rfl
  | query e ok =>
    obtain ⟨stmt, -, heq⟩ := Server.next_query hen
    rw [heq, Server.afterQuery_nextClient]
    exact le_rfl
  | _ => exact le_rfl

/-- Only a registration and a deletion change `clients_map`. -/
theorem clientsMap_same {s s' : Server} {a : Action} (hs : s.step a = some s')
    (hreg : ∀ t compilers order, a ≠ .register t compilers order)
    (hunmap : ∀ t me c, a ≠ .unmap t me c) : s'.clientsMap = s.clientsMap := by
  obtain ⟨hen, rfl⟩ := Server.step_some.1 hs
  cases a with
  | register t compilers order => exact absurd rfl (hreg t compilers order)
  | unmap t me c => exact absurd rfl (hunmap t me c)
  | loop t me l ev =>
    obtain ⟨c, l', -, heq⟩ := Server.next_loop hen
    rw [heq]
    exact s.postEffect_clientsMap l ev
  | submit | find | lock | lookup | choose =>
    simp only [Server.next]
    split <;> rfl
  | query e ok =>
    obtain ⟨stmt, -, heq⟩ := Server.next_query hen
    rw [heq, Server.afterQuery_clientsMap]
    rfl
  | _ => rfl

/-- What is registered after a step was so before, or joins by it. -/
theorem clientsMap_back {s s' : Server} {a : Action} (hs : s.step a = some s') {c : ClientRef}
    (h : c ∈ s'.clientsMap) :
    c ∈ s.clientsMap ∨ c = s.nextClient ∧ ∃ t compilers order, a = .register t compilers order := by
  by_cases hreg : ∃ t compilers order, a = .register t compilers order
  · obtain ⟨t, compilers, order, rfl⟩ := hreg
    obtain ⟨-, rfl⟩ := Server.step_some.1 hs
    rcases List.mem_cons.1 (mem_rehash.1 h) with rfl | hold
    · exact Or.inr ⟨rfl, t, compilers, order, rfl⟩
    · exact Or.inl hold
  by_cases hunmap : ∃ t me d, a = .unmap t me d
  · obtain ⟨t, me, d, rfl⟩ := hunmap
    obtain ⟨-, rfl⟩ := Server.step_some.1 hs
    exact Or.inl (List.mem_of_mem_filter h)
  · rw [clientsMap_same hs (fun t compilers order heq => hreg ⟨t, compilers, order, heq⟩)
      fun t me d heq => hunmap ⟨t, me, d, heq⟩] at h
    exact Or.inl h

/-- Only a registration and the cleaning of the lists change `compilers_map`. -/
theorem compilersMap_same {s s' : Server} {a : Action} (hs : s.step a = some s')
    (hann : ∀ t me compilers mems, a ≠ .announce t me compilers mems)
    (hunlist : ∀ t me c, a ≠ .unlist t me c) : s'.compilersMap = s.compilersMap := by
  obtain ⟨hen, rfl⟩ := Server.step_some.1 hs
  cases a with
  | announce t me compilers mems => exact absurd rfl (hann t me compilers mems)
  | unlist t me c => exact absurd rfl (hunlist t me c)
  | loop t me l ev =>
    obtain ⟨c, l', -, heq⟩ := Server.next_loop hen
    rw [heq]
    exact s.postEffect_induct (P := fun r => r.compilersMap = s.compilersMap) l ev rfl fun _ _ => rfl
  | submit | find | lock | lookup | choose =>
    simp only [Server.next]
    split <;> rfl
  | query e ok =>
    obtain ⟨stmt, -, heq⟩ := Server.next_query hen
    rw [heq]
    unfold Server.afterQuery
    split <;> rfl
  | _ => rfl

/-- The moves of a thread from its registration to the deletion of its client. -/
inductive Moves (s : Server) (t : Tid) : Action → WorkerPc → WorkerPc → Prop
  | register (compilers : List UInt16) (order : List ClientRef) : Moves s t
      (.register t compilers order) (.register compilers) (.announce s.nextClient compilers)
  | announce (me : ClientRef) (compilers : List UInt16) (mems : List CompilersMap.Memory) : Moves s t
      (.announce t me compilers mems) (.announce me compilers) (.loop me ⟨.top, .other 0⟩)
  | loop (me : ClientRef) (l l' : Locals) (ev : LoopEv) :
      Moves s t (.loop t me l ev) (.loop me l) (.loop me l')
  | found (me c : ClientRef) (errno : Errno) : s.findClient (s.clients me).id = some c →
      Moves s t (.find t me errno) (.loop me ⟨.removing, errno⟩) (.remove me c .lists)
  | lost (me : ClientRef) (errno : Errno) : s.findClient (s.clients me).id = none →
      Moves s t (.find t me errno) (.loop me ⟨.removing, errno⟩) .done
  | unlist (me c : ClientRef) : Moves s t (.unlist t me c) (.remove me c .lists) (.remove me c .map)
  | unmap (me c : ClientRef) : Moves s t (.unmap t me c) (.remove me c .map) (.remove me c .lock)
  | outside {a : Action} {pc pc' : WorkerPc} : pc.serves = none → pc'.serves = none →
      Moves s t a pc pc'

theorem moves_step {s s' : Server} {a : Action} {t : Tid} (hs : s.step a = some s')
    (ht : Server.thread a = some t) : Moves s t a (s.workers t) (s'.workers t) := by
  obtain ⟨hen, rfl⟩ := Server.step_some.1 hs
  cases a with
  | accept u compilers =>
    obtain rfl := Option.some.inj ht
    rw [hen, Server.next, Server.setWorker_same]
    exact .outside rfl rfl
  | register u compilers order =>
    obtain rfl := Option.some.inj ht
    rw [hen, show (s.next (.register u compilers order)).workers u = _ from Function.update_self ..]
    exact .register compilers order
  | announce u me compilers mems =>
    obtain rfl := Option.some.inj ht
    rw [hen, show (s.next (.announce u me compilers mems)).workers u = _ from Function.update_self ..]
    exact .announce me compilers mems
  | loop u me l ev =>
    obtain rfl := Option.some.inj ht
    obtain ⟨c, l', -, heq⟩ := Server.next_loop hen
    rw [hen.1, heq, Server.setWorker_same]
    exact .loop me l l' ev
  | find u me errno =>
    obtain rfl := Option.some.inj ht
    rw [hen]
    simp only [Server.next]
    split
    · rename_i c hfind
      rw [Server.setWorker_same]
      exact .found me c errno hfind
    · rename_i hnone
      rw [Server.setWorker_same]
      exact .lost me errno hnone
  | unlist u me c =>
    obtain rfl := Option.some.inj ht
    rw [hen, show (s.next (.unlist u me c)).workers u = _ from Function.update_self ..]
    exact .unlist me c
  | unmap u me c =>
    obtain rfl := Option.some.inj ht
    rw [hen, show (s.next (.unmap u me c)).workers u = _ from Function.update_self ..]
    exact .unmap me c
  | lock u me c =>
    obtain rfl := Option.some.inj ht
    rw [hen.1]
    simp only [Server.next]
    split
    · exact .outside rfl (by simp [Server.setCall, Server.setWorker, WorkerPc.serves])
    · exact .outside rfl (by simp [WorkerPc.serves])
  | unslot u me c =>
    obtain rfl := Option.some.inj ht
    rw [hen.1, Server.next, Server.setWorker_same]
    exact .outside rfl rfl
  | finish u me c =>
    obtain rfl := Option.some.inj ht
    rw [hen.1, Server.next, Server.setWorker_same]
    exact .outside rfl rfl
  | free u me c =>
    obtain rfl := Option.some.inj ht
    rw [hen, Server.next, Server.setWorker_same]
    exact .outside rfl rfl
  | _ => cases ht

/-- A thread comes to serve a client only by its registration. -/
theorem serves_back {s s' : Server} {a : Action} (hs : s.step a = some s') {t : Tid} {me : ClientRef}
    (hserves : (s'.workers t).serves = some me) : (s.workers t).serves = some me ∨
      me = s.nextClient ∧ ∃ compilers order, a = .register t compilers order := by
  by_cases ht : Server.thread a = some t
  swap
  · rw [Server.workers_other hs ht] at hserves
    exact Or.inl hserves
  have hmoves := moves_step hs ht
  revert hserves
  generalize s.workers t = pc at hmoves
  generalize s'.workers t = pc' at hmoves
  intro hserves
  cases hmoves with
  | register compilers order => exact Or.inr ⟨(Option.some.inj hserves).symm, compilers, order, rfl⟩
  | lost | unmap => cases hserves
  | outside _ hnone =>
    rw [hnone] at hserves
    cases hserves
  | _ => exact Or.inl hserves

/-- A thread stops listing its client when it has cleaned the lists, or has not found it. -/
theorem lists_forward {s s' : Server} {a : Action} (hs : s.step a = some s') {t : Tid}
    {me : ClientRef} (hlists : (s.workers t).lists = some me) : (s'.workers t).lists = some me ∨
      (∃ c, a = .unlist t me c) ∨ s.findClient (s.clients me).id = none := by
  by_cases ht : Server.thread a = some t
  swap
  · rw [Server.workers_other hs ht]
    exact Or.inl hlists
  have hmoves := moves_step hs ht
  have hserves := serves_of_lists hlists
  revert hlists hserves
  generalize s.workers t = pc at hmoves
  generalize s'.workers t = pc' at hmoves
  intro hlists hserves
  cases hmoves with
  | loop => exact Or.inl hlists
  | found => exact Or.inl hlists
  | lost me' errno hnone =>
    obtain rfl := Option.some.inj hlists
    exact Or.inr (Or.inr hnone)
  | unlist me' c =>
    obtain rfl := Option.some.inj hlists
    exact Or.inr (Or.inl ⟨c, rfl⟩)
  | outside hnone _ =>
    rw [hnone] at hserves
    cases hserves
  | _ => cases hlists

/-! What a registration puts into the lists. -/

namespace CompilersMap

variable {m : CompilersMap} {clientId : UInt32} {k : CompilerRef}

theorem chain_announce (compilerId : UInt16) (mem : Memory) (hk : k ∈ m.chain) :
    k ∈ (m.announce clientId compilerId mem).chain := by
  unfold announce
  split
  · exact hk
  · simp [addClient, create, hk]

theorem mem_addClient {k' : CompilerRef} {id : UInt32}
    (hid : id ∈ ((m.addClient k' clientId).obj k).clientsList) :
    id = clientId ∨ id ∈ (m.obj k).clientsList := by
  by_cases hk : k = k'
  · subst hk
    simpa [addClient, or_comm] using hid
  · right
    simpa [addClient, Function.update_of_ne hk] using hid

theorem mem_announce {compilerId : UInt16} {mem : Memory} {id : UInt32}
    (hk : k ∈ (m.announce clientId compilerId mem).chain)
    (hid : id ∈ ((m.announce clientId compilerId mem).obj k).clientsList) :
    id = clientId ∨ k ∈ m.chain ∧ id ∈ (m.obj k).clientsList := by
  cases hfind : m.find (key16 compilerId mem.behindLocal) with
  | some k' =>
    simp only [announce, hfind] at hk hid
    exact (mem_addClient hid).imp_right fun hold => ⟨hk, hold⟩
  | none =>
    simp only [announce, hfind] at hk hid
    refine (mem_addClient hid).imp_right fun hold => ?_
    by_cases hnew : k = m.next
    · subst hnew
      simp [create] at hold
    · have hchain : k ∈ m.chain := by simpa [addClient, create, hnew] using hk
      exact ⟨hchain, by simpa [create, Function.update_of_ne hnew] using hold⟩

theorem chain_announceAll (compilers : List UInt16) (mems : List Memory) (hk : k ∈ m.chain) :
    k ∈ (announceAll clientId compilers mems m).chain := by
  fun_induction announceAll clientId compilers mems m with
  | case1 => exact hk
  | case2 _ _ _ ih => exact ih (chain_announce _ _ hk)
  | case3 _ _ _ _ _ ih => exact ih (chain_announce _ _ hk)

/-- Every entry of a list is the announced one or an old one of an old compiler. -/
theorem mem_announceAll {compilers : List UInt16} {mems : List Memory} {id : UInt32}
    (hk : k ∈ (announceAll clientId compilers mems m).chain)
    (hid : id ∈ ((announceAll clientId compilers mems m).obj k).clientsList) :
    id = clientId ∨ k ∈ m.chain ∧ id ∈ (m.obj k).clientsList := by
  fun_induction announceAll clientId compilers mems m with
  | case1 => exact Or.inr ⟨hk, hid⟩
  | case2 _ _ _ ih | case3 _ _ _ _ _ ih =>
    rcases ih hk hid with heq | ⟨hk, hid⟩
    · exact Or.inl heq
    · exact mem_announce hk hid

theorem mem_unlist {id : UInt32} (hk : k ∈ (m.unlist clientId).chain)
    (hid : id ∈ ((m.unlist clientId).obj k).clientsList) :
    id ≠ clientId ∧ id ∈ (m.obj k).clientsList := by
  have hchain : k ∈ m.chain := hk
  simpa [unlist, hchain, and_comm] using hid

end CompilersMap

/-- Whatever others see in a list is an entry of the whole list, or the id of the
thread that is registering its client. -/
theorem mem_visible {s : Server} {m : CompilersMap} (hm : Visible s m) {k : CompilerRef}
    {id : UInt32} (hk : k ∈ m.chain) (hid : id ∈ (m.obj k).clientsList) :
    (k ∈ s.compilersMap.chain ∧ id ∈ (s.compilersMap.obj k).clientsList) ∨ ∃ t, s.Serves t id := by
  cases hm with
  | whole => exact Or.inl ⟨hk, hid⟩
  | announcing rounds mems hw =>
    rcases CompilersMap.mem_announceAll hk hid with rfl | hold
    · exact Or.inr ⟨_, _, by rw [hw]; rfl, rfl⟩
    · exact Or.inl hold
  | cleaning cleaned hw =>
    simp only [CompilersMap.unlistOf] at hk hid
    split_ifs at hid with hcleaned
    · exact Or.inl ⟨hk, (CompilersMap.mem_unlist hk hid).2⟩
    · exact Or.inl ⟨hk, hid⟩

theorem chain_visible {s : Server} {m : CompilersMap} (hm : Visible s m) {k : CompilerRef}
    (hk : k ∈ s.compilersMap.chain) : k ∈ m.chain := by
  cases hm with
  | whole => exact hk
  | announcing rounds mems => exact CompilersMap.chain_announceAll _ mems hk
  | cleaning => exact hk

namespace Listed

variable {s s' : Server} {a : Action}

theorem serves_id (h : Listed s) (hs : s.step a = some s') {t : Tid} {me : ClientRef}
    (hserves : (s.workers t).serves = some me) : (s'.clients me).id = (s.clients me).id :=
  id_step hs (h.born t me hserves)

theorem born_step (h : Listed s) (hs : s.step a = some s') (t : Tid) (me : ClientRef)
    (hserves : (s'.workers t).serves = some me) : me < s'.nextClient := by
  rcases serves_back hs hserves with hold | ⟨rfl, compilers, order, rfl⟩
  · exact lt_of_lt_of_le (h.born t me hold) (nextClient_step hs)
  · obtain ⟨-, rfl⟩ := Server.step_some.1 hs
    exact Nat.lt_succ_self _

theorem found_step (hg : Guarded s) (h : Listed s) (hs : s.step a = some s') (t : Tid)
    (me c : ClientRef) (p : RemovePc) (hw : s'.workers t = .remove me c p)
    (hserves : (s'.workers t).serves = some me) : (s'.clients c).id = (s'.clients me).id := by
  have hkeep : ∀ q, s.workers t = .remove me c q → (s.workers t).serves = some me →
      (s'.clients c).id = (s'.clients me).id := by
    intro q hold hme
    have hc : c < s.nextClient := hg.removing t c (by rw [hold]; rfl)
    rw [id_step hs hc, h.serves_id hs hme]
    exact h.found t me c q hold hme
  by_cases ht : Server.thread a = some t
  swap
  · rw [Server.workers_other hs ht] at hw hserves
    exact hkeep p hw hserves
  have hmoves := moves_step hs ht
  generalize hpc : s.workers t = pc at hmoves
  rw [hw] at hmoves hserves
  cases hmoves with
  | found _ _ errno hfind =>
    obtain ⟨hmem, hid⟩ := findClient_some hfind
    rw [id_step hs (hg.known c hmem), h.serves_id hs (by rw [hpc]; rfl : _ = some me)]
    exact hid
  | unlist => exact hkeep .lists hpc (by rw [hpc]; rfl)
  | unmap => cases hserves
  | outside _ hnone =>
    rw [hnone] at hserves
    cases hserves

theorem chain_step (hs : s.step a = some s') {k : CompilerRef} (hk : k ∈ s.compilersMap.chain) :
    k ∈ s'.compilersMap.chain := by
  by_cases hmaps : s'.compilersMap = s.compilersMap
  · rwa [hmaps]
  · obtain ⟨hen, rfl⟩ := Server.step_some.1 hs
    cases a with
    | announce t me compilers mems => exact CompilersMap.chain_announceAll compilers mems hk
    | unlist t me c => exact hk
    | _ => exact absurd (compilersMap_same hs (by simp) (by simp)) hmaps

theorem choosing_step (h : Listed s) (hs : s.step a = some s') (who : Who) (sln : Solution)
    (k : CompilerRef) (hcall : s'.calls who = some ⟨sln, .choose k⟩) :
    k ∈ s'.compilersMap.chain := by
  apply chain_step hs
  by_cases hwho : Server.caller a = some who
  swap
  · rw [Server.calls_other hs hwho] at hcall
    exact h.choosing who sln k hcall
  obtain ⟨hen, rfl⟩ := Server.step_some.1 hs
  cases a with
  | lookup who' sln' =>
    obtain rfl := Option.some.inj hwho
    simp only [Server.next] at hcall
    split at hcall
    · rename_i k' hfind
      rw [Server.setCall_same] at hcall
      obtain ⟨-, rfl⟩ : sln' = sln ∧ k' = k := by simpa using hcall
      exact List.mem_of_find?_eq_some hfind
    · simp at hcall
  | choose who' sln' k' ok =>
    obtain rfl := Option.some.inj hwho
    simp only [Server.next] at hcall
    split at hcall <;> simp at hcall
  | lock t me c =>
    obtain rfl := Option.some.inj hwho
    simp only [Server.next] at hcall
    split at hcall
    · simp at hcall
    · exact h.choosing _ sln k hcall
  | pop | noCompiler | append | dispatch =>
    obtain rfl := Option.some.inj hwho
    simp [Server.next] at hcall
  | _ => cases hwho

theorem serves_step (h : Listed s) (hs : s.step a = some s') {t : Tid} {id : UInt32}
    (ht : s'.Serves t id) (hreg : ∀ compilers order, a ≠ .register t compilers order) :
    s.Serves t id := by
  obtain ⟨me, hserves, hid⟩ := ht
  rcases serves_back hs hserves with hold | ⟨-, compilers, order, heq⟩
  · exact ⟨me, hold, (h.serves_id hs hold).symm.trans hid⟩
  · exact absurd heq (hreg compilers order)

/-- The entries of the clients that stay. -/
theorem entries_step (hg : Guarded s) (hs : s.step a = some s') (id : UInt32)
    (hmap : s'.clientsMap = s.clientsMap) : s'.entries id = s.entries id := by
  unfold Server.entries
  rw [hmap]
  refine List.countP_congr fun c hc => ?_
  rw [id_step hs (hg.known c hc)]

theorem counted_register (hg : Guarded s) (h : Listed s) {t : Tid} {compilers : List UInt16}
    {order : List ClientRef} (hs : s.step (.register t compilers order) = some s') (id : UInt32)
    (T : Finset Tid) (hT : ∀ u ∈ T, s'.Serves u id) : T.card ≤ s'.entries id := by
  have hold : ∀ u ∈ T.erase t, s.Serves u id := by
    intro u hu
    obtain ⟨hne, hu⟩ := Finset.mem_erase.1 hu
    refine h.serves_step hs (hT u hu) fun compilers' order' heq => hne ?_
    exact (Action.register.inj heq).1.symm
  have hbefore := h.counted id (T.erase t) hold
  have hids : ∀ c ∈ s.clientsMap, (s'.clients c).id = (s.clients c).id :=
    fun c hc => id_step hs (hg.known c hc)
  obtain ⟨hen, rfl⟩ := Server.step_some.1 hs
  set s' := s.next (.register t compilers order) with hs'
  have hentries : s'.entries id =
      s.entries id + if (s'.clients s.nextClient).id = id then 1 else 0 := by
    have hperm : s'.clientsMap.Perm (s.nextClient :: s.clientsMap) := rehash_perm order _
    unfold Server.entries
    rw [hperm.countP_eq, List.countP_cons]
    congr 1
    · exact List.countP_congr fun c hc => by rw [hids c hc]
    · simp
  by_cases ht : t ∈ T
  · obtain ⟨me, hserves, hid⟩ := hT t ht
    have hme : me = s.nextClient := by
      rw [hs', show (s.next (.register t compilers order)).workers t = _ from
        Function.update_self ..] at hserves
      exact (Option.some.inj hserves).symm
    rw [hme] at hid
    rw [hentries, if_pos hid, ← Finset.card_erase_add_one ht]
    exact Nat.add_le_add_right hbefore 1
  · rw [Finset.erase_eq_of_notMem ht] at hbefore
    exact hbefore.trans (by rw [hentries]; exact Nat.le_add_right _ _)

/-- The thread that deletes an entry gives up the id of this entry. -/
theorem counted_unmap (hg : Guarded s) (h : Listed s) {t : Tid} {me c : ClientRef}
    (hs : s.step (.unmap t me c) = some s') (id : UInt32)
    (T : Finset Tid) (hT : ∀ u ∈ T, s'.Serves u id) : T.card ≤ s'.entries id := by
  have hold : ∀ u ∈ T, s.Serves u id := fun u hu => h.serves_step hs (hT u hu) (by simp)
  obtain ⟨hen, rfl⟩ := Server.step_some.1 hs
  have hentries : (s.next (.unmap t me c)).entries id =
      (s.clientsMap.filter (· ≠ c)).countP fun d => (s.clients d).id = id := rfl
  have herase : s.clientsMap.filter (· ≠ c) = s.clientsMap.erase c := by
    rw [hg.nodup.erase_eq_filter]
    exact List.filter_congr fun d _ => by rw [Bool.eq_iff_iff]; simp
  rw [herase, List.countP_erase] at hentries
  have hmine : s.Serves t (s.clients c).id := by
    have hserves : (s.workers t).serves = some me := by rw [hen]; rfl
    exact ⟨me, hserves, (h.found t me c .map hen hserves).symm⟩
  have hlost : t ∉ T := by
    intro ht
    obtain ⟨m, hm, -⟩ := hT t ht
    rw [show (s.next (.unmap t me c)).workers t = _ from Function.update_self ..] at hm
    cases hm
  split_ifs at hentries with hc
  · have hid : (s.clients c).id = id := by simpa using hc.2
    have hmore := h.counted id (insert t T) fun u hu => by
      rcases Finset.mem_insert.1 hu with rfl | hu
      · exact hid ▸ hmine
      · exact hold u hu
    rw [Finset.card_insert_of_notMem hlost] at hmore
    have hcount : s.entries id = s.clientsMap.countP fun d => (s.clients d).id = id := rfl
    omega
  · rw [hentries]
    exact h.counted id T hold

theorem counted_step (hg : Guarded s) (h : Listed s) (hs : s.step a = some s') (id : UInt32)
    (T : Finset Tid) (hT : ∀ u ∈ T, s'.Serves u id) : T.card ≤ s'.entries id := by
  cases a with
  | register t compilers order => exact counted_register hg h hs id T hT
  | unmap t me c => exact counted_unmap hg h hs id T hT
  | _ =>
    rw [entries_step hg hs id (clientsMap_same hs (by simp) (by simp))]
    exact h.counted id T fun u hu => h.serves_step hs (hT u hu) (by simp)

theorem registered (h : Listed s) : ListsRegistered s := by
  have hlisted : ∀ m, Visible s m → ∀ k ∈ m.chain, ∀ id ∈ (m.obj k).clientsList,
      ∃ c ∈ s.clientsMap, (s.clients c).id = id := by
    intro m hm k hk id hid
    rcases mem_visible hm hk hid with ⟨hk, hid⟩ | ⟨t, ht⟩
    · obtain ⟨t, me, hme, hmeid⟩ := h.listed k hk id hid
      exact h.exists_entry ⟨me, serves_of_lists hme, hmeid⟩
    · exact h.exists_entry ht
  refine ⟨hlisted, fun who sln k hcall m hm id hid hnone => ?_, fun t me errno hw hnone => ?_⟩
  · have hk := chain_visible hm (h.choosing who sln k hcall)
    obtain ⟨c, hc, hcid⟩ := hlisted m hm k hk id hid
    exact findClient_eq_none.1 hnone c hc hcid
  · obtain ⟨c, hc, hcid⟩ := h.exists_entry (t := t) ⟨me, by rw [hw]; rfl, rfl⟩
    exact findClient_eq_none.1 hnone c hc hcid

/-- An entry of a list keeps its thread, unless that thread cleans the lists of the id. -/
theorem lists_step (h : Listed s) (hs : s.step a = some s') {k : CompilerRef} {id : UInt32}
    (hk : k ∈ s.compilersMap.chain) (hid : id ∈ (s.compilersMap.obj k).clientsList)
    (hclean : ∀ t me c, a = .unlist t me c → id ≠ (s.clients me).id) :
    ∃ t me, (s'.workers t).lists = some me ∧ (s'.clients me).id = id := by
  obtain ⟨t, me, hlists, hme⟩ := h.listed k hk id hid
  have hserves := serves_of_lists hlists
  rcases lists_forward hs hlists with hstill | ⟨c, rfl⟩ | hnone
  · exact ⟨t, me, hstill, (h.serves_id hs hserves).trans hme⟩
  · exact absurd hme.symm (hclean t me c rfl)
  · obtain ⟨c, hc, hcid⟩ := h.exists_entry ⟨me, hserves, rfl⟩
    exact absurd hcid (findClient_eq_none.1 hnone c hc)

theorem listed_step (h : Listed s) (hs : s.step a = some s') (k : CompilerRef)
    (hk : k ∈ s'.compilersMap.chain) (id : UInt32)
    (hid : id ∈ (s'.compilersMap.obj k).clientsList) :
    ∃ t me, (s'.workers t).lists = some me ∧ (s'.clients me).id = id := by
  cases a with
  | announce t me compilers mems =>
    obtain ⟨hen, rfl⟩ := Server.step_some.1 hs
    rcases CompilersMap.mem_announceAll hk hid with rfl | ⟨hk, hid⟩
    · refine ⟨t, me, ?_, rfl⟩
      rw [show (s.next (.announce t me compilers mems)).workers t = _ from Function.update_self ..]
      rfl
    · exact h.lists_step hs hk hid (by simp)
  | unlist t me c =>
    obtain ⟨hen, rfl⟩ := Server.step_some.1 hs
    obtain ⟨hne, hold⟩ := CompilersMap.mem_unlist hk hid
    refine h.lists_step hs hk hold fun t' me' c' heq => ?_
    obtain ⟨-, rfl, -⟩ := Action.unlist.inj heq
    exact hne
  | _ =>
    rw [compilersMap_same hs (by simp) (by simp)] at hk hid
    exact h.lists_step hs hk hid (by simp)

theorem step (hg : Guarded s) (h : Listed s) (hs : s.step a = some s') : Listed s' where
  born := h.born_step hs
  found := found_step hg h hs
  counted := counted_step hg h hs
  listed := h.listed_step hs
  choosing := h.choosing_step hs

end Listed

theorem reaches_listed {db : Table} {as : List Action} {s : Server} (h : Reaches db as s) :
    Guarded s ∧ Listed s := by
  refine h.invariant (I := fun s => Guarded s ∧ Listed s) ⟨guarded_init db, listed_init db⟩ ?_
  intro s a s' ⟨hg, hl⟩ hs
  exact ⟨step_guarded hg hs, hl.step hg hs⟩

/-- In every reachable state, clashing ids included. -/
theorem lists_registered (db : Table) (as : List Action) (s : Server) (h : Reaches db as s) :
    ListsRegistered s := (reaches_listed h).2.registered

/-- Two registered clients have the id 2, and the thread of one of them is about to
remove it. -/
theorem lists_registered_clash : ∃ s, Reaches oneNewRow clashRun s ∧
    s.workers 1 = .loop 1 ⟨.removing, .ECONNRESET⟩ ∧ ListsRegistered s :=
  ⟨_, Run.iff_foldlM.2 rfl, rfl, lists_registered oneNewRow clashRun _ (Run.iff_foldlM.2 rfl)⟩

end JudgeServer
