import JudgeServer.Server.Mutexes

/-! The ids of the clients. Registration takes the next value of `last_client_id` and
removal steps the counter back, so the counter is one more than the number of the
registered clients, whoever has left: the ids stay distinct exactly in the runs where
no client that joins finds that value in use. -/

namespace JudgeServer

open Transition

/-- The client of a thread that has not taken it out of `clients_map` yet. -/
def WorkerPc.serves : WorkerPc → Option ClientRef
  | .announce me _ => some me
  | .loop me _ => some me
  | .remove me _ .lists => some me
  | .remove me _ .map => some me
  | _ => none

def IdsDistinct (s : Server) : Prop := (s.clientsMap.map fun c => (s.clients c).id).Nodup

/-- A removal finds, unregisters and frees the client of its own thread. -/
def RemovesItself (s : Server) : Action → Prop
  | .find _ me _ => s.findClient (s.clients me).id = some me
  | .unmap _ me c => c = me
  | .finish _ me c | .free _ me c => c = me
  | _ => True

/-- The client that joins finds no registered client whose id is the number of the
registered clients plus one. -/
def JoinsFresh (s : Server) : Action → Prop
  | .register _ _ _ =>
    ∀ c ∈ s.clientsMap, (s.clients c).id ≠ UInt32.ofNat (s.clientsMap.length + 1)
  | _ => True

/-- What uniqueness rests on: each registered client has at most one thread, and a
thread in `remove_client` removes its own client. -/
structure Numbered (s : Server) : Prop where
  distinct : IdsDistinct s
  counter : s.lastClientId = UInt32.ofNat (s.clientsMap.length + 1)
  serving : ∀ t me, (s.workers t).serves = some me → me ∈ s.clientsMap
  alone : ∀ t u me, (s.workers t).serves = some me → (s.workers u).serves = some me → t = u
  own : ∀ t me c pc, s.workers t = .remove me c pc → c = me

theorem numbered_init (db : Table) : Numbered (.init db) where
  distinct := List.nodup_nil
  counter := rfl
  serving := by simp [Server.init, WorkerPc.serves]
  alone := by simp [Server.init, WorkerPc.serves]
  own := by simp [Server.init]

/-- With distinct ids `HASH_FIND_INT` finds the client that is asked for. -/
theorem findClient_self {s : Server} (h : IdsDistinct s) {c : ClientRef} (hc : c ∈ s.clientsMap) :
    s.findClient (s.clients c).id = some c := by
  obtain ⟨d, hd⟩ : ∃ d, s.findClient (s.clients c).id = some d := by
    rw [← Option.isSome_iff_exists, Server.findClient, List.find?_isSome]
    exact ⟨c, hc, by simp⟩
  obtain ⟨hmem, hid⟩ := findClient_some hd
  rw [hd, List.inj_on_of_nodup_map h hmem hc hid]

namespace Numbered

variable {s s' : Server}

theorem frame (h : Numbered s) (hmap : s'.clientsMap = s.clientsMap)
    (hlast : s'.lastClientId = s.lastClientId) (hids : ∀ c, (s'.clients c).id = (s.clients c).id)
    (hworkers : s'.workers = s.workers) : Numbered s' := by
  obtain ⟨h1, h2, h3, h4, h5⟩ := h
  refine ⟨?_, ?_, ?_, ?_, ?_⟩
  · simpa only [IdsDistinct, hmap, hids] using h1
  · rw [hlast, hmap, h2]
  · simpa only [hmap, hworkers] using h3
  · simpa only [hworkers] using h4
  · simpa only [hworkers] using h5

theorem setClient (h : Numbered s) {c : ClientRef} {client : Client}
    (hid : client.id = (s.clients c).id) : Numbered (s.setClient c client) := by
  refine h.frame rfl rfl (fun d => ?_) rfl
  by_cases hd : d = c
  · subst hd
    rw [s.setClient_same, hid]
  · rw [s.setClient_other client hd]

theorem setCall (h : Numbered s) (who : Who) (call : Option PushCall) :
    Numbered (s.setCall who call) := h.frame rfl rfl (fun _ => rfl) rfl

/-- A thread goes on with its client, or it lets go of it. -/
theorem setWorker (h : Numbered s) {t : Tid} {pc : WorkerPc}
    (hserves : ∀ me, pc.serves = some me → (s.workers t).serves = some me)
    (hown : ∀ me c p, pc = .remove me c p → c = me) : Numbered (s.setWorker t pc) := by
  have hback : ∀ u me, ((s.setWorker t pc).workers u).serves = some me →
      (s.workers u).serves = some me := by
    intro u me hu
    rcases s.setWorker_cases t u pc with ⟨rfl, heq⟩ | ⟨-, heq⟩ <;> rw [heq] at hu
    · exact hserves me hu
    · exact hu
  refine ⟨h.distinct, h.counter, fun u me hu => h.serving u me (hback u me hu),
    fun u v me hu hv => h.alone u v me (hback u me hu) (hback v me hv), fun u me c p hu => ?_⟩
  rcases s.setWorker_cases t u pc with ⟨-, heq⟩ | ⟨-, heq⟩ <;> rw [heq] at hu
  · exact hown me c p hu
  · exact h.own u me c p hu

/-- The ids after a registration. -/
theorem register_distinct_iff (hg : Guarded s) (h : Numbered s) (t : Tid) (compilers : List UInt16)
    (order : List ClientRef) :
    IdsDistinct (s.next (.register t compilers order)) ↔
      JoinsFresh s (.register t compilers order) := by
  set s' := s.next (.register t compilers order) with hs'
  have hnew : (s'.clients s.nextClient).id = UInt32.ofNat (s.clientsMap.length + 1) := by
    rw [hs', ← h.counter]
    simp [Server.next, clientCreate]
  have hold : ∀ c ∈ s.clientsMap, (s'.clients c).id = (s.clients c).id := by
    intro c hc
    have hne : c ≠ s.nextClient := (hg.known c hc).ne
    rw [hs']
    simp only [Server.next, Function.update_of_ne hne]
  have hperm : (s'.clientsMap.map fun c => (s'.clients c).id).Perm
      (UInt32.ofNat (s.clientsMap.length + 1) :: s.clientsMap.map fun c => (s.clients c).id) := by
    refine ((rehash_perm order (s.nextClient :: s.clientsMap)).map _).trans ?_
    rw [List.map_cons, hnew, List.map_congr_left hold]
  unfold IdsDistinct
  rw [hperm.nodup_iff, List.nodup_cons]
  refine ⟨fun hnodup c hc heq => ?_, fun hfresh => ⟨fun hmem => ?_, h.distinct⟩⟩
  · exact hnodup.1 (List.mem_map.2 ⟨c, hc, heq⟩)
  · obtain ⟨c, hc, heq⟩ := List.mem_map.1 hmem
    exact hfresh c hc heq

theorem register (hg : Guarded s) (h : Numbered s) {t : Tid} {compilers : List UInt16}
    {order : List ClientRef} (hfresh : JoinsFresh s (.register t compilers order)) :
    Numbered (s.next (.register t compilers order)) := by
  have hnew : s.nextClient ∉ s.clientsMap := fun hmem => Nat.lt_irrefl _ (hg.known _ hmem)
  have hlen : (rehash order (s.nextClient :: s.clientsMap)).length = s.clientsMap.length + 1 :=
    (rehash_perm _ _).length_eq
  have hcases : ∀ u, u = t ∧ (s.next (.register t compilers order)).workers u =
        .announce s.nextClient compilers ∨
      u ≠ t ∧ (s.next (.register t compilers order)).workers u = s.workers u :=
    fun u => s.setWorker_cases t u (.announce s.nextClient compilers)
  refine ⟨(h.register_distinct_iff hg t compilers order).2 hfresh, ?_, fun u me hu => ?_,
    fun u v me hu hv => ?_, fun u me c p hu => ?_⟩
  · simp only [Server.next, hlen, h.counter]
    rw [UInt32.ofNat_add (s.clientsMap.length + 1) 1]
    rfl
  · simp only [Server.next, mem_rehash, List.mem_cons]
    rcases hcases u with ⟨-, heq⟩ | ⟨-, heq⟩ <;> rw [heq] at hu
    · exact Or.inl (Option.some.inj hu).symm
    · exact Or.inr (h.serving u me hu)
  · rcases hcases u with ⟨hut, hequ⟩ | ⟨-, hequ⟩ <;> rw [hequ] at hu <;>
      rcases hcases v with ⟨hvt, heqv⟩ | ⟨-, heqv⟩ <;> rw [heqv] at hv
    · rw [hut, hvt]
    · obtain rfl := Option.some.inj hu
      exact absurd (h.serving v _ hv) hnew
    · obtain rfl := Option.some.inj hv
      exact absurd (h.serving u _ hu) hnew
    · exact h.alone u v me hu hv
  · rcases hcases u with ⟨-, heq⟩ | ⟨-, heq⟩ <;> rw [heq] at hu
    · cases hu
    · exact h.own u me c p hu

/-- The thread takes its own client, which is in the map, out of it. -/
theorem unmap (hg : Guarded s) (h : Numbered s) {t : Tid} {me c : ClientRef}
    (hw : s.workers t = .remove me c .map) : Numbered (s.next (.unmap t me c)) := by
  obtain rfl := h.own t me c _ hw
  have hserves : (s.workers t).serves = some c := by rw [hw]; rfl
  have hmem := h.serving t c hserves
  have hcases : ∀ u, u = t ∧ (s.next (.unmap t c c)).workers u = .remove c c .lock ∨
      u ≠ t ∧ (s.next (.unmap t c c)).workers u = s.workers u :=
    fun u => s.setWorker_cases t u (.remove c c .lock)
  have hback : ∀ u me, ((s.next (.unmap t c c)).workers u).serves = some me →
      u ≠ t ∧ (s.workers u).serves = some me := by
    intro u me hu
    rcases hcases u with ⟨-, heq⟩ | ⟨hut, heq⟩ <;> rw [heq] at hu
    · cases hu
    · exact ⟨hut, hu⟩
  refine ⟨?_, ?_, fun u me hu => ?_, fun u v me hu hv => ?_, fun u me d p hu => ?_⟩
  · have hsub : (s.clientsMap.filter (· ≠ c)).Sublist s.clientsMap := List.filter_sublist
    exact (hsub.map _).nodup h.distinct
  · have hlen : (s.clientsMap.filter (· ≠ c)).length + 1 = s.clientsMap.length := by
      have herase : s.clientsMap.filter (· ≠ c) = s.clientsMap.erase c := by
        rw [hg.nodup.erase_eq_filter]
        exact List.filter_congr fun d _ => by rw [Bool.eq_iff_iff]; simp
      rw [herase, List.length_erase_of_mem hmem]
      have := List.length_pos_of_mem hmem
      omega
    change s.lastClientId - 1 = UInt32.ofNat ((s.clientsMap.filter (· ≠ c)).length + 1)
    rw [hlen, h.counter, UInt32.ofNat_add]
    exact UInt32.add_sub_cancel ..
  · obtain ⟨hut, hold⟩ := hback u me hu
    have hne : me ≠ c := fun heq => hut (h.alone u t c (heq ▸ hold) hserves)
    exact List.mem_filter.2 ⟨h.serving u me hold, by simpa using hne⟩
  · exact h.alone u v me (hback u me hu).2 (hback v me hv).2
  · rcases hcases u with ⟨-, heq⟩ | ⟨-, heq⟩ <;> rw [heq] at hu
    · obtain ⟨rfl, rfl, -⟩ := WorkerPc.remove.inj hu
      rfl
    · exact h.own u me d p hu

/-- Every step keeps the numbering if a client that joins is fresh. -/
theorem step (hg : Guarded s) (h : Numbered s) {a : Action} (hs : s.step a = some s')
    (hfresh : JoinsFresh s a) : Numbered s' := by
  obtain ⟨hen, rfl⟩ := Server.step_some.1 hs
  cases a with
  | accept t compilers => exact h.setWorker (by simp [WorkerPc.serves]) (by simp)
  | register t compilers order => exact h.register hg hfresh
  | announce t me compilers mems =>
    have hmaps : Numbered { s with
        compilersMap := CompilersMap.announceAll (s.clients me).id compilers mems s.compilersMap } :=
      h.frame rfl rfl (fun _ => rfl) rfl
    exact hmaps.setWorker (fun m hm => by dsimp only; rw [hen]; exact hm) (by simp)
  | loop t me l ev =>
    obtain ⟨c, l', hstep, heq⟩ := Server.next_loop hen
    obtain ⟨hw, -, -⟩ := hen
    rw [heq]
    have hn : Numbered (s.postEffect l ev) :=
      s.postEffect_induct l ev h fun _ _ => h.frame rfl rfl (fun _ => rfl) rfl
    refine (hn.setClient ?_).setWorker (fun m hm => ?_) (by simp)
    · rw [Server.postEffect_clients]
      exact (loopStep_identity hstep).1
    · change ((s.postEffect l ev).workers t).serves = some m
      rw [Server.postEffect_workers, hw]
      exact hm
  | find t me errno =>
    have hme : (s.workers t).serves = some me := by rw [hen]; rfl
    simp only [Server.next, findClient_self h.distinct (h.serving t me hme)]
    refine h.setWorker (fun m hm => hme.trans hm) fun m c p heq => ?_
    obtain ⟨rfl, rfl, -⟩ := WorkerPc.remove.inj heq
    rfl
  | unlist t me c =>
    have hmaps : Numbered { s with compilersMap := s.compilersMap.unlist (s.clients me).id } :=
      h.frame rfl rfl (fun _ => rfl) rfl
    refine hmaps.setWorker (fun m hm => by dsimp only; rw [hen]; exact hm) fun m d p heq => ?_
    obtain ⟨rfl, rfl, -⟩ := WorkerPc.remove.inj heq
    exact h.own t _ _ _ hen
  | unmap t me c => exact h.unmap hg hen
  | lock t me c =>
    obtain ⟨hw, -⟩ := hen
    obtain rfl := h.own t me c _ hw
    have hclient : Numbered (s.setClient c { s.clients c with locked := true }) := h.setClient rfl
    have hpc : ∀ m d p q, WorkerPc.remove c c p = .remove m d q → d = m := by
      intro m d p q heq
      obtain ⟨rfl, rfl, -⟩ := WorkerPc.remove.inj heq
      rfl
    simp only [Server.next]
    split
    · exact (hclient.setWorker (by simp [WorkerPc.serves]) fun m d p => hpc m d _ p).setCall _ _
    · exact hclient.setWorker (by simp [WorkerPc.serves]) fun m d p => hpc m d _ p
  | unslot t me c =>
    obtain ⟨hw, -⟩ := hen
    obtain rfl := h.own t me c _ hw
    have hclient : Numbered (s.setClient c (s.clients c).clearChecking) := h.setClient rfl
    refine hclient.setWorker (by simp [WorkerPc.serves]) fun m d p heq => ?_
    obtain ⟨rfl, rfl, -⟩ := WorkerPc.remove.inj heq
    rfl
  | pop t me c sln rest =>
    have hclient : Numbered (s.setClient c { s.clients c with solutionsQueue := rest }) :=
      h.setClient rfl
    exact hclient.setCall _ _
  | finish t me c =>
    have hclient : Numbered (s.setClient c { s.clients c with locked := false }) := h.setClient rfl
    refine hclient.setWorker (by simp [WorkerPc.serves]) fun m d p heq => ?_
    obtain ⟨rfl, rfl, -⟩ := WorkerPc.remove.inj heq
    exact h.own t _ _ _ hen.1
  | free t me c =>
    have hclient : Numbered (s.setClient c
        { s.clients c with solutionsQueue := [], checkingSolution := none }) := h.setClient rfl
    exact hclient.setWorker (by simp [WorkerPc.serves]) (by simp)
  | lookup who sln =>
    simp only [Server.next]
    split <;> exact h.setCall _ _
  | noCompiler who sln ok => exact h.frame rfl rfl (fun _ => rfl) rfl
  | choose who sln k ok =>
    simp only [Server.next]
    split
    · exact h.setCall _ _
    · exact h.frame rfl rfl (fun _ => rfl) rfl
  | append who sln c =>
    have hclient : Numbered (s.setClient c ((s.clients c).push sln)) := h.setClient rfl
    exact hclient.setCall _ _
  | submit row =>
    simp only [Server.next]
    split
    · exact h.frame rfl rfl (fun _ => rfl) rfl
    · exact h
  | query e ok =>
    obtain ⟨stmt, -, heq⟩ := Server.next_query hen
    rw [heq]
    exact h.frame (by simp [Server.query]) (by unfold Server.afterQuery; split <;> rfl)
      (by simp [Server.query]) (by simp [Server.query])
  | _ => exact h.frame rfl rfl (fun _ => rfl) rfl

theorem removesItself (h : Numbered s) {a : Action} (hs : s.step a = some s') :
    RemovesItself s a := by
  obtain ⟨hen, -⟩ := Server.step_some.1 hs
  cases a with
  | find t me errno =>
    exact findClient_self h.distinct (h.serving t me (by rw [hen]; rfl))
  | unmap t me c => exact h.own t me c _ hen
  | finish t me c => exact h.own t me c _ hen.1
  | free t me c => exact h.own t me c _ hen
  | _ => trivial

end Numbered

theorem reaches_numbered {db : Table} {as : List Action} {s : Server} (h : Reaches db as s)
    (hfresh : Along Server.step (.init db) as JoinsFresh) : Guarded s ∧ Numbered s := by
  refine h.invariant_along (I := fun s => Guarded s ∧ Numbered s) hfresh
    ⟨guarded_init db, numbered_init db⟩ ?_
  intro s a s' ⟨hg, hn⟩ hok hs
  exact ⟨step_guarded hg hs, hn.step hg hs hok⟩

/-- Over a whole run the ids are unique and every removal is that of its own client,
exactly when every client that joins is fresh. -/
theorem ids_unique_iff (db : Table) (as : List Action) (s : Server) (h : Reaches db as s) :
    Throughout Server.step (.init db) as IdsDistinct ∧
        Along Server.step (.init db) as RemovesItself ↔
      Along Server.step (.init db) as JoinsFresh := by
  induction h with
  | nil => simp [throughout_nil, along_nil, (numbered_init db).distinct]
  | @snoc as a s s' hr hs ih =>
    rw [throughout_snoc (hr.snoc hs), along_snoc hr, along_snoc hr, ← ih]
    refine ⟨fun ⟨⟨hthrough, hlast⟩, hself, _⟩ => ⟨⟨hthrough, hself⟩, ?_⟩,
      fun ⟨⟨hthrough, hself⟩, hfresh⟩ => ?_⟩
    · obtain ⟨hg, hn⟩ := reaches_numbered hr (ih.1 ⟨hthrough, hself⟩)
      obtain ⟨-, rfl⟩ := Server.step_some.1 hs
      cases a with
      | register t compilers order => exact (hn.register_distinct_iff hg t compilers order).1 hlast
      | _ => trivial
    · obtain ⟨hg, hn⟩ := reaches_numbered hr (ih.1 ⟨hthrough, hself⟩)
      exact ⟨⟨hthrough, (hn.step hg hs hfresh).distinct⟩, hself, hn.removesItself hs⟩

/-- Clients 1 and 2 join, client 2 leaves. -/
def leftRun : List Action :=
  joining 0 0 ++ joining 1 1 ++ resetting 1 1 ++ unmapping 1 1 1 ++
    [.lock 1 1 1, .finish 1 1 1, .free 1 1 1]

/-- The next client gets the id 2 again, which nobody has. -/
theorem ids_unique_returning : ∃ s, Reaches oneNewRow (leftRun ++ joining 2 2) s ∧
    s.clientsMap.map (fun c => (s.clients c).id) = [2, 1] ∧
    Throughout Server.step (.init oneNewRow) (leftRun ++ joining 2 2) IdsDistinct ∧
      Along Server.step (.init oneNewRow) (leftRun ++ joining 2 2) RemovesItself := by
  have hrun : Reaches oneNewRow (leftRun ++ joining 2 2) _ := Run.iff_foldlM.2 rfl
  refine ⟨_, hrun, rfl, (ids_unique_iff oneNewRow (leftRun ++ joining 2 2) _ hrun).2 ?_⟩
  have hleft : Reaches oneNewRow leftRun _ := Run.iff_foldlM.2 rfl
  have hfirst : Reaches oneNewRow (joining 0 0) _ := Run.iff_foldlM.2 rfl
  refine (along_append hleft _).2 ⟨?_, (along_cons rfl).2 ⟨trivial, (along_cons rfl).2 ⟨?_, ?_⟩⟩⟩
  · simp only [leftRun, List.append_assoc]
    refine (along_append hfirst _).2 ⟨(along_cons rfl).2 ⟨trivial, (along_cons rfl).2 ⟨?_, ?_⟩⟩,
      (along_cons rfl).2 ⟨trivial, (along_cons rfl).2 ⟨?_, ?_⟩⟩⟩
    · dsimp only [JoinsFresh]
      decide
    · exact along_of_forall fun a ha s => by fin_cases ha; trivial
    · dsimp only [JoinsFresh]
      decide
    · exact along_of_forall fun a ha s => by fin_cases ha <;> trivial
  · dsimp only [JoinsFresh]
    decide
  · exact along_of_forall fun a ha s => by fin_cases ha; trivial

/-- Clients 1 and 2 join, client 1 leaves, another client joins, client 2 is reset. -/
def clashRun : List Action :=
  joining 0 0 ++ joining 1 1 ++ resetting 0 0 ++ unmapping 0 0 0 ++ [.lock 0 0 0, .finish 0 0 0] ++
    joining 2 2 ++ resetting 1 1

/-- The id 2 is given out twice, and the thread of the first client with it goes on to
remove the second one. -/
theorem ids_clash :
    (∃ s, Reaches oneNewRow clashRun s ∧ (s.clientsMap.map fun c => (s.clients c).id) = [2, 2] ∧
      s.findClient (s.clients 1).id = some 2) ∧
    ¬ (Throughout Server.step (.init oneNewRow) clashRun IdsDistinct) ∧
    ¬ Along Server.step (.init oneNewRow) (clashRun ++ unmapping 1 1 2) RemovesItself := by
  have hrun : Reaches oneNewRow clashRun _ := Run.iff_foldlM.2 rfl
  refine ⟨⟨_, hrun, rfl, rfl⟩, fun h => ?_, fun h => ?_⟩
  · have hdistinct := h clashRun [] _ (by simp) hrun
    revert hdistinct
    unfold IdsDistinct
    decide
  · have hself := h clashRun (.find 1 1 .ECONNRESET) _ _ rfl hrun
    have hother : (2 : ClientRef) = 1 := Option.some.inj hself
    exact absurd hother (by decide)

end JudgeServer
