import JudgeServer.Server.Step

/-! The registry and the client mutexes: which clients are in `clients_map`, which
thread is inside which client's mutex, and that a client is out of the map before the
thread that removes it drains it. -/

namespace JudgeServer

open Transition

/-- `emptied` is why a drained client keeps nothing: the thread that drains it has
cleared the slot, and nobody else gets into the mutex. -/
structure Guarded (s : Server) : Prop where
  nodup : s.clientsMap.Nodup
  known : ∀ c ∈ s.clientsMap, c < s.nextClient
  removing : ∀ t c, (s.workers t).removes = some c → c < s.nextClient
  gone : ∀ t c, (s.workers t).unmapped = some c → c ∉ s.clientsMap
  locked_iff : ∀ c, (s.clients c).locked = true ↔ ∃ t, (s.workers t).inside = some c
  one : ∀ t u c, (s.workers t).inside = some c → (s.workers u).inside = some c → t = u
  emptied : ∀ t me c, s.workers t = .remove me c .drain → (s.clients c).checkingSolution = none
  calling : ∀ t, s.calls (.worker t) ≠ none → ∃ c, (s.workers t).inside = some c

theorem unmapped_of_inside {pc : WorkerPc} {c : ClientRef} (h : pc.inside = some c) :
    pc.unmapped = some c := by
  unfold WorkerPc.inside at h
  split at h <;> first | exact h | cases h

theorem removes_of_unmapped {pc : WorkerPc} {c : ClientRef} (h : pc.unmapped = some c) :
    pc.removes = some c := by
  unfold WorkerPc.unmapped at h
  split at h <;> first | exact h | cases h

theorem guarded_init (db : Table) : Guarded (.init db) where
  nodup := List.nodup_nil
  known := by simp [Server.init]
  removing := by simp [Server.init, WorkerPc.removes]
  gone := by simp [Server.init]
  locked_iff := by simp [Server.init, clientCreate, WorkerPc.inside]
  one := by simp [Server.init, WorkerPc.inside]
  emptied := by simp [Server.init]
  calling := by simp [Server.init]

namespace Guarded

variable {s s' : Server}

/-- No thread is inside the mutex of a client that is not locked. -/
theorem not_inside (h : Guarded s) {c : ClientRef} (hc : (s.clients c).locked = false) (t : Tid) :
    (s.workers t).inside ≠ some c := by
  intro hin
  rw [(h.locked_iff c).2 ⟨t, hin⟩] at hc
  cases hc

/-- A registered client is never locked. -/
theorem registered_unlocked (h : Guarded s) {c : ClientRef} (hc : c ∈ s.clientsMap) :
    (s.clients c).locked = false := by
  by_contra hlocked
  obtain ⟨t, ht⟩ := (h.locked_iff c).1 (by simpa using hlocked)
  exact h.gone t c (unmapped_of_inside ht) hc

theorem no_call (h : Guarded s) {t : Tid} (ht : (s.workers t).inside = none) :
    s.calls (.worker t) = none := by
  by_contra hne
  obtain ⟨c, hc⟩ := h.calling t hne
  rw [ht] at hc
  cases hc

/-- Steps that leave the registry, the workers and their calls alone. -/
theorem frame (h : Guarded s) (hmap : s'.clientsMap = s.clientsMap)
    (hnext : s'.nextClient = s.nextClient) (hclients : s'.clients = s.clients)
    (hworkers : s'.workers = s.workers)
    (hcalls : ∀ t, s'.calls (.worker t) = s.calls (.worker t)) : Guarded s' := by
  obtain ⟨h1, h2, h3, h4, h5, h6, h7, h8⟩ := h
  refine ⟨?_, ?_, ?_, ?_, ?_, ?_, ?_, ?_⟩ <;> simp only [hmap, hnext, hclients, hworkers, hcalls] <;>
    assumption

/-- A thread goes on outside every client's mutex. -/
theorem setWorker (h : Guarded s) {t : Tid} {pc : WorkerPc} (hfrom : (s.workers t).inside = none)
    (hto : pc.inside = none) (hremoves : ∀ c, pc.removes = some c → c < s.nextClient)
    (hgone : ∀ c, pc.unmapped = some c → c ∉ s.clientsMap) : Guarded (s.setWorker t pc) := by
  have hinside : ∀ u c, ((s.setWorker t pc).workers u).inside = some c ↔
      (s.workers u).inside = some c := by
    intro u c
    rcases s.setWorker_cases t u pc with ⟨rfl, heq⟩ | ⟨-, heq⟩
    · rw [heq, hfrom, hto]
    · rw [heq]
  refine ⟨h.nodup, h.known, fun u c hu => ?_, fun u c hu => ?_, fun c => ?_, fun u v c hu hv => ?_,
    fun u me c hu => ?_, fun u hu => ?_⟩
  · rcases s.setWorker_cases t u pc with ⟨-, heq⟩ | ⟨-, heq⟩ <;> rw [heq] at hu
    · exact hremoves c hu
    · exact h.removing u c hu
  · rcases s.setWorker_cases t u pc with ⟨-, heq⟩ | ⟨-, heq⟩ <;> rw [heq] at hu
    · exact hgone c hu
    · exact h.gone u c hu
  · simp only [hinside]
    exact h.locked_iff c
  · exact h.one u v c ((hinside u c).1 hu) ((hinside v c).1 hv)
  · rcases s.setWorker_cases t u pc with ⟨-, heq⟩ | ⟨-, heq⟩ <;> rw [heq] at hu
    · rw [hu] at hto
      cases hto
    · exact h.emptied u me c hu
  · obtain ⟨c, hc⟩ := h.calling u hu
    exact ⟨c, (hinside u c).2 hc⟩

/-- A client's queue and slot change; the slot only while nobody drains the client. -/
theorem setClient (h : Guarded s) {c : ClientRef} {client : Client}
    (hlocked : client.locked = (s.clients c).locked)
    (hslot : (s.clients c).locked = true → (s.clients c).checkingSolution = none →
      client.checkingSolution = none) : Guarded (s.setClient c client) := by
  have hsame : ∀ d, ((s.setClient c client).clients d).locked = (s.clients d).locked := by
    intro d
    by_cases hd : d = c
    · subst hd
      rw [s.setClient_same, hlocked]
    · rw [s.setClient_other client hd]
  refine ⟨h.nodup, h.known, h.removing, h.gone, fun d => ?_, h.one, fun t me d ht => ?_, h.calling⟩
  · rw [hsame]
    exact h.locked_iff d
  · by_cases hd : d = c
    · subst hd
      have hin : (s.workers t).inside = some d := by
        rw [show s.workers t = .remove me d .drain from ht]
        rfl
      rw [s.setClient_same]
      exact hslot ((h.locked_iff d).2 ⟨t, hin⟩) (h.emptied t me d ht)
    · rw [s.setClient_other client hd]
      exact h.emptied t me d ht

/-- A call of a worker begins or goes on only inside a mutex. -/
theorem setCall (h : Guarded s) {who : Who} {call : Option PushCall}
    (hcall : ∀ t, who = .worker t → call ≠ none → ∃ c, (s.workers t).inside = some c) :
    Guarded (s.setCall who call) := by
  refine ⟨h.nodup, h.known, h.removing, h.gone, h.locked_iff, h.one, h.emptied, fun t ht => ?_⟩
  by_cases hw : Who.worker t = who
  · subst hw
    rw [s.setCall_same] at ht
    exact hcall t rfl ht
  · rw [s.setCall_other call hw] at ht
    exact h.calling t ht

/-- A call that is in progress goes on or ends. -/
theorem setCall_of_some (h : Guarded s) {who : Who} {pending : PushCall} (call : Option PushCall)
    (hwho : s.calls who = some pending) : Guarded (s.setCall who call) := by
  refine h.setCall fun t ht _ => h.calling t ?_
  subst ht
  simp [hwho]

/-- The thread that removes a client enters its mutex, or goes on inside of it. -/
theorem enter (h : Guarded s) {t : Tid} {me me' c : ClientRef} {p q : RemovePc} {client : Client}
    (hw : s.workers t = .remove me c p)
    (hmine : (s.workers t).inside = some c ∨
      (s.workers t).unmapped = some c ∧ (s.clients c).locked = false)
    (hlocked : client.locked = true) (hto : q = .slot ∨ q = .drain)
    (hslot : q = .drain → client.checkingSolution = none) :
    Guarded ((s.setClient c client).setWorker t (.remove me' c q)) := by
  set pc := WorkerPc.remove me' c q with hpc
  have hin : pc.inside = some c := by rcases hto with rfl | rfl <;> rfl
  have hgone : c ∉ s.clientsMap := by
    rcases hmine with hm | ⟨hm, -⟩
    · exact h.gone t c (unmapped_of_inside hm)
    · exact h.gone t c hm
  -- nobody else is inside of this client, and this thread is inside of no other
  have halone : ∀ u, u ≠ t → (s.workers u).inside ≠ some c := by
    intro u hu huc
    rcases hmine with hm | ⟨-, hm⟩
    · exact hu (h.one u t c huc hm)
    · exact h.not_inside hm u huc
  have honly : ∀ d, d ≠ c → (s.workers t).inside ≠ some d := by
    intro d hd hin'
    rw [hw] at hin'
    cases p <;> simp_all [WorkerPc.inside]
  have hcases := fun u => (s.setClient c client).setWorker_cases t u pc
  have hinside : ∀ u d, (((s.setClient c client).setWorker t pc).workers u).inside = some d ↔
      u = t ∧ d = c ∨ u ≠ t ∧ (s.workers u).inside = some d := by
    intro u d
    rcases hcases u with ⟨rfl, heq⟩ | ⟨hu, heq⟩ <;> rw [heq]
    · simp [hin, eq_comm]
    · simp [hu, Server.setClient]
  refine ⟨h.nodup, h.known, fun u d hu => ?_, fun u d hu => ?_, fun d => ?_, fun u v d hu hv => ?_,
    fun u m d hu => ?_, fun u hu => ?_⟩
  · rcases hcases u with ⟨rfl, heq⟩ | ⟨-, heq⟩ <;> rw [heq] at hu
    · exact h.removing u d (by rw [hw]; exact hu)
    · exact h.removing u d hu
  · rcases hcases u with ⟨-, heq⟩ | ⟨-, heq⟩ <;> rw [heq] at hu
    · rw [unmapped_of_inside hin] at hu
      obtain rfl := Option.some.inj hu
      exact hgone
    · exact h.gone u d hu
  · change ((s.setClient c client).clients d).locked = true ↔ _
    simp only [hinside]
    by_cases hd : d = c
    · subst hd
      rw [s.setClient_same, hlocked]
      exact iff_of_true rfl ⟨t, Or.inl ⟨rfl, rfl⟩⟩
    · rw [s.setClient_other client hd, h.locked_iff d]
      refine exists_congr fun u => ⟨fun hu => Or.inr ⟨?_, hu⟩, fun hu => (hu.resolve_left ?_).2⟩
      · rintro rfl
        exact honly d hd hu
      · exact fun heq => hd heq.2
  · rcases (hinside u d).1 hu with ⟨hut, hd⟩ | ⟨hut, hu⟩ <;>
      rcases (hinside v d).1 hv with ⟨hvt, hd'⟩ | ⟨hvt, hv⟩
    · rw [hut, hvt]
    · exact absurd (hd ▸ hv) (halone v hvt)
    · exact absurd (hd' ▸ hu) (halone u hut)
    · exact h.one u v d hu hv
  · change ((s.setClient c client).clients d).checkingSolution = none
    rcases hcases u with ⟨-, heq⟩ | ⟨hut, heq⟩ <;> rw [heq] at hu
    · obtain ⟨-, rfl, rfl⟩ := WorkerPc.remove.inj hu
      rw [s.setClient_same]
      exact hslot rfl
    · have hd : d ≠ c := by
        rintro rfl
        exact halone u hut (by rw [show s.workers u = .remove m d .drain from hu]; rfl)
      rw [s.setClient_other client hd]
      exact h.emptied u m d hu
  · by_cases hut : u = t
    · exact ⟨c, (hinside u c).2 (Or.inl ⟨hut, rfl⟩)⟩
    · obtain ⟨d, hd⟩ := h.calling u hu
      exact ⟨d, (hinside u d).2 (Or.inr ⟨hut, hd⟩)⟩

/-- A new client enters the map under a number that nobody refers to. -/
theorem register (h : Guarded s) (order : List ClientRef) (id : UInt32) :
    Guarded { s with
      clients := Function.update s.clients s.nextClient (clientCreate id)
      clientsMap := rehash order (s.nextClient :: s.clientsMap)
      nextClient := s.nextClient + 1
      lastClientId := s.lastClientId + 1 } := by
  have hnew : s.nextClient ∉ s.clientsMap := fun hmem => Nat.lt_irrefl _ (h.known _ hmem)
  have hfresh : ∀ t c, (s.workers t).removes = some c → c ≠ s.nextClient := by
    rintro t c ht rfl
    exact Nat.lt_irrefl _ (h.removing t _ ht)
  refine ⟨?_, fun c hc => ?_, fun t c ht => ?_, fun t c ht hc => ?_, fun c => ?_, h.one,
    fun t me c ht => ?_, h.calling⟩
  · exact (rehash_perm _ _).nodup_iff.2 (List.nodup_cons.2 ⟨hnew, h.nodup⟩)
  · rcases List.mem_cons.1 (mem_rehash.1 hc) with rfl | hc
    · exact Nat.lt_succ_self _
    · exact Nat.lt_succ_of_lt (h.known c hc)
  · exact Nat.lt_succ_of_lt (h.removing t c ht)
  · rcases List.mem_cons.1 (mem_rehash.1 hc) with rfl | hc
    · exact hfresh t _ (removes_of_unmapped ht) rfl
    · exact h.gone t c ht hc
  · dsimp only
    by_cases hc : c = s.nextClient
    · subst hc
      rw [Function.update_self]
      refine iff_of_false (by simp [clientCreate]) ?_
      intro ⟨t, ht⟩
      exact hfresh t _ (removes_of_unmapped (unmapped_of_inside ht)) rfl
    · rw [Function.update_of_ne hc]
      exact h.locked_iff c
  · dsimp only at ht ⊢
    have hc : c ≠ s.nextClient := by
      apply hfresh t c
      rw [ht]
      rfl
    rw [Function.update_of_ne hc]
    exact h.emptied t me c ht

theorem unmap (h : Guarded s) (c : ClientRef) :
    Guarded { s with
      clientsMap := s.clientsMap.filter (· ≠ c)
      lastClientId := s.lastClientId - 1 } :=
  ⟨h.nodup.filter _, fun d hd => h.known d (List.mem_of_mem_filter hd), h.removing,
    fun t d ht hd => h.gone t d ht (List.mem_of_mem_filter hd), h.locked_iff, h.one, h.emptied,
    h.calling⟩

/-- The thread leaves the mutex of the client it has drained. -/
theorem leave (h : Guarded s) {t : Tid} {me c : ClientRef} {client : Client}
    (hw : s.workers t = .remove me c .drain) (hcall : s.calls (.worker t) = none)
    (hlocked : client.locked = false) :
    Guarded ((s.setClient c client).setWorker t (.remove me c .free)) := by
  have hin : (s.workers t).inside = some c := by
    rw [hw]
    rfl
  have hcases := fun u => (s.setClient c client).setWorker_cases t u (.remove me c .free)
  have hinside : ∀ u d,
      (((s.setClient c client).setWorker t (.remove me c .free)).workers u).inside = some d ↔
        u ≠ t ∧ (s.workers u).inside = some d := by
    intro u d
    rcases hcases u with ⟨rfl, heq⟩ | ⟨hu, heq⟩ <;> rw [heq]
    · simp [WorkerPc.inside]
    · simp [hu, Server.setClient]
  refine ⟨h.nodup, h.known, fun u d hu => ?_, fun u d hu => ?_, fun d => ?_, fun u v d hu hv => ?_,
    fun u m d hu => ?_, fun u hu => ?_⟩
  · rcases hcases u with ⟨rfl, heq⟩ | ⟨-, heq⟩ <;> rw [heq] at hu
    · exact h.removing u d (by rw [hw]; exact hu)
    · exact h.removing u d hu
  · rcases hcases u with ⟨-, heq⟩ | ⟨-, heq⟩ <;> rw [heq] at hu
    · cases hu
    · exact h.gone u d hu
  · change ((s.setClient c client).clients d).locked = true ↔ _
    simp only [hinside]
    by_cases hd : d = c
    · subst hd
      rw [s.setClient_same, hlocked]
      refine iff_of_false Bool.false_ne_true ?_
      rintro ⟨u, hut, hu⟩
      exact hut (h.one u t d hu hin)
    · rw [s.setClient_other client hd, h.locked_iff d]
      refine exists_congr fun u => ⟨fun hu => ⟨?_, hu⟩, fun hu => hu.2⟩
      rintro rfl
      rw [hin] at hu
      exact hd (Option.some.inj hu).symm
  · exact h.one u v d ((hinside u d).1 hu).2 ((hinside v d).1 hv).2
  · change ((s.setClient c client).clients d).checkingSolution = none
    obtain ⟨hut, hud⟩ := (hinside u d).1 (by rw [hu]; rfl)
    have hd : d ≠ c := by
      rintro rfl
      exact hut (h.one u t d hud hin)
    rw [s.setClient_other client hd]
    rcases hcases u with ⟨heq, -⟩ | ⟨-, heq⟩
    · exact absurd heq hut
    · rw [heq] at hu
      exact h.emptied u m d hu
  · have hut : u ≠ t := by
      rintro rfl
      exact hu hcall
    obtain ⟨d, hd⟩ := h.calling u hu
    exact ⟨d, (hinside u d).2 ⟨hut, hd⟩⟩

end Guarded

/-- Every step keeps the registry and the mutexes in order. -/
theorem step_guarded {s s' : Server} {a : Action} (h : Guarded s) (hs : s.step a = some s') :
    Guarded s' := by
  obtain ⟨hen, rfl⟩ := Server.step_some.1 hs
  cases a with
  | accept t compilers =>
    exact h.setWorker (by rw [hen]; rfl) rfl (by simp [WorkerPc.removes]) (by simp [WorkerPc.unmapped])
  | register t compilers order =>
    exact (h.register order s.lastClientId).setWorker (by dsimp only; rw [hen]; rfl) rfl
      (by simp [WorkerPc.removes]) (by simp [WorkerPc.unmapped])
  | announce t me compilers mems =>
    have hmaps : Guarded { s with
        compilersMap := CompilersMap.announceAll (s.clients me).id compilers mems s.compilersMap } :=
      h.frame rfl rfl rfl rfl fun _ => rfl
    exact hmaps.setWorker (by dsimp only; rw [hen]; rfl) rfl (by simp [WorkerPc.removes])
      (by simp [WorkerPc.unmapped])
  | loop t me l ev =>
    obtain ⟨c, l', hstep, heq⟩ := Server.next_loop hen
    obtain ⟨hw, hadmit, -⟩ := hen
    rw [heq]
    have hg : Guarded (s.postEffect l ev) :=
      s.postEffect_induct l ev h fun _ _ => h.frame rfl rfl rfl rfl fun _ => rfl
    have hclient : Guarded ((s.postEffect l ev).setClient me c) := by
      apply hg.setClient
      · rw [Server.postEffect_clients]
        exact (loopStep_identity hstep).2
      · rw [Server.postEffect_clients]
        intro hlocked hnone
        cases loopStep_holding hstep with
        | pop => simp [Server.admits, hlocked] at hadmit
        | clear heq =>
          obtain rfl := heq
          rfl
        | push => simp [Server.admits] at hadmit
        | same hsame => rw [hsame.slot]; exact hnone
    refine hclient.setWorker ?_ rfl (by simp [WorkerPc.removes]) (by simp [WorkerPc.unmapped])
    change ((s.postEffect l ev).workers t).inside = none
    rw [Server.postEffect_workers, hw]
    rfl
  | find t me errno =>
    simp only [Server.next]
    split
    · rename_i c hfind
      refine h.setWorker (by rw [hen]; rfl) rfl (fun d hd => ?_) (by simp [WorkerPc.unmapped])
      obtain rfl := Option.some.inj hd
      exact h.known _ (findClient_some hfind).1
    · exact h.setWorker (by rw [hen]; rfl) rfl (by simp [WorkerPc.removes])
        (by simp [WorkerPc.unmapped])
  | unlist t me c =>
    have hmaps : Guarded { s with compilersMap := s.compilersMap.unlist (s.clients me).id } :=
      h.frame rfl rfl rfl rfl fun _ => rfl
    refine hmaps.setWorker (by dsimp only; rw [hen]; rfl) rfl (fun d hd => ?_)
      (by simp [WorkerPc.unmapped])
    exact h.removing t d (by rw [hen]; exact hd)
  | unmap t me c =>
    refine (h.unmap c).setWorker (by dsimp only; rw [hen]; rfl) rfl (fun d hd => ?_) fun d hd => ?_
    · exact h.removing t d (by rw [hen]; exact hd)
    · obtain rfl := Option.some.inj hd
      simp
  | lock t me c =>
    obtain ⟨hw, hfree⟩ := hen
    have hmine : (s.workers t).unmapped = some c ∧ (s.clients c).locked = false :=
      ⟨by rw [hw]; rfl, hfree⟩
    simp only [Server.next]
    split
    · rename_i sln hslot
      refine (h.enter hw (Or.inr hmine) rfl (Or.inl rfl) (by simp)).setCall ?_
      rintro u hu -
      obtain rfl := Who.worker.inj hu
      exact ⟨c, by rw [Server.setWorker_same]; rfl⟩
    · rename_i hslot
      exact h.enter hw (Or.inr hmine) rfl (Or.inr rfl) fun _ => hslot
  | unslot t me c =>
    obtain ⟨hw, -⟩ := hen
    have hin : (s.workers t).inside = some c := by rw [hw]; rfl
    exact h.enter hw (Or.inl hin) ((h.locked_iff c).2 ⟨t, hin⟩) (Or.inr rfl) fun _ => rfl
  | pop t me c sln rest =>
    obtain ⟨hw, -, -⟩ := hen
    have hclient : Guarded (s.setClient c { s.clients c with solutionsQueue := rest }) :=
      h.setClient rfl fun _ hnone => hnone
    refine hclient.setCall ?_
    rintro u hu -
    obtain rfl := Who.worker.inj hu
    exact ⟨c, by change (s.workers t).inside = some c; rw [hw]; rfl⟩
  | finish t me c =>
    obtain ⟨hw, hcall, -⟩ := hen
    exact h.leave hw hcall rfl
  | free t me c =>
    have hclient : Guarded (s.setClient c
        { s.clients c with solutionsQueue := [], checkingSolution := none }) :=
      h.setClient rfl fun _ _ => rfl
    exact hclient.setWorker (by change (s.workers t).inside = none; rw [hen]; rfl) rfl
      (by simp [WorkerPc.removes]) (by simp [WorkerPc.unmapped])
  | lookup who sln =>
    simp only [Server.next]
    split <;> exact h.setCall_of_some _ hen
  | noCompiler who sln ok =>
    have hquery : Guarded (s.postFailed sln ok) := h.frame rfl rfl rfl rfl fun _ => rfl
    exact hquery.setCall_of_some none hen
  | choose who sln k ok =>
    simp only [Server.next]
    split
    · exact h.setCall_of_some _ hen
    · have hquery : Guarded (s.postFailed sln ok) := h.frame rfl rfl rfl rfl fun _ => rfl
      exact hquery.setCall_of_some none hen
  | append who sln c =>
    obtain ⟨hcall, -⟩ := hen
    have hpush : Guarded (s.setClient c ((s.clients c).push sln)) :=
      h.setClient rfl fun _ hnone => hnone
    exact hpush.setCall_of_some none hcall
  | dispatch sln rest =>
    have hpoll : Guarded { s with poll := .dispatch rest } := h.frame rfl rfl rfl rfl fun _ => rfl
    exact hpoll.setCall fun t ht => by cases ht
  | submit row =>
    simp only [Server.next]
    split
    · exact h.frame rfl rfl rfl rfl fun _ => rfl
    · exact h
  | query e ok =>
    obtain ⟨stmt, -, heq⟩ := Server.next_query hen
    rw [heq]
    exact h.frame (by simp [Server.query]) (by simp [Server.query]) (by simp [Server.query])
      (by simp [Server.query]) (by simp [Server.query])
  | _ => exact h.frame rfl rfl rfl rfl fun _ => rfl

theorem reaches_guarded {db : Table} {as : List Action} {s : Server} (h : Reaches db as s) :
    Guarded s := h.invariant (guarded_init db) fun _ _ _ => step_guarded

end JudgeServer
