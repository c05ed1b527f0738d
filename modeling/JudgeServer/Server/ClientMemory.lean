import JudgeServer.Server.Cleanup
import JudgeServer.Server.Ids

/-! The memory of the client objects. A client belongs to the thread that registered it;
`remove_client` frees it at its end, and `cleanup` frees those that are still registered.
While the ids are unique each client is freed once, and the one thread that can still
reach it afterwards is a `push_solution` that has chosen it before. -/

namespace JudgeServer

open Transition

/-- The client object that the thread works with. -/
def WorkerPc.attached : WorkerPc → Option ClientRef
  | .announce me _ => some me
  | .loop me _ => some me
  | .remove me _ _ => some me
  | _ => none

/-- `leaving` is about the clients that a thread has taken out of `clients_map`, `ended` about
those that `cleanup` finds. -/
structure ClientsFreed (as : List Action) (s : Server) : Prop where
  once : (freedClients as).Nodup
  present : ∀ c, c < s.nextClient ↔
    c ∈ s.clientsMap ∨ (∃ t, (s.workers t).disposes = some c) ∨ c ∈ freedClients as
  leaving : ∀ t c, (s.workers t).disposes = some c →
    c ∉ s.clientsMap ∧ ∀ u, (s.workers u).disposes = some c → u = t
  apart : ∀ c ∈ freedClients as, c ∉ s.clientsMap ∧ ∀ t, (s.workers t).attached ≠ some c ∧
    (s.workers t).disposes ≠ some c
  safe : ∀ a s', s.step a = some s' → ∀ c ∈ s.uses a, c ∈ freedClients as →
    ∃ who sln, a = .append who sln c
  ended : Stopped s → (freedClients as ++ s.clientsMap).Perm (List.range s.nextClient)

/-- A thread works with a client of its own. -/
structure Attached (s : Server) : Prop where
  known : ∀ t c, (s.workers t).attached = some c → c < s.nextClient
  alone : ∀ t u c, (s.workers t).attached = some c → (s.workers u).attached = some c → t = u

theorem attached_init (db : Table) : Attached (.init db) where
  known := by simp [Server.init, WorkerPc.attached]
  alone := by simp [Server.init, WorkerPc.attached]

/-- What has been freed, and what is about to be, is in the map no more. -/
structure Kept (as : List Action) (s : Server) : Prop where
  once : (freedClients as).Nodup
  apart : ∀ c ∈ freedClients as, c < s.nextClient ∧ c ∉ s.clientsMap ∧
    ∀ t, (s.workers t).attached ≠ some c
  leaving : ∀ t c, (s.workers t).disposes = some c → c ∉ s.clientsMap

theorem kept_init (db : Table) : Kept [] (.init db) where
  once := List.nodup_nil
  apart := by simp [freedClients]
  leaving := by simp [Server.init, WorkerPc.disposes]

variable {as : List Action} {s s' : Server} {a : Action}

/-- A thread gets a client when it registers it, and gives it up for good. -/
theorem attached_step (hs : s.step a = some s') {t : Tid} {c : ClientRef}
    (h : (s'.workers t).attached = some c) :
    (s.workers t).attached = some c ∧ (∀ me d, a ≠ .free t me d) ∨
      c = s.nextClient ∧ ∃ compilers order, a = .register t compilers order := by
  by_cases ht : Server.thread a = some t
  swap
  · rw [Server.workers_other hs ht] at h
    exact Or.inl ⟨h, fun me d heq => ht (by rw [heq]; rfl)⟩
  obtain ⟨hen, rfl⟩ := Server.step_some.1 hs
  cases a with
  | accept u compilers =>
    obtain rfl := Option.some.inj ht
    simp [Server.next, WorkerPc.attached] at h
  | register u compilers order =>
    obtain rfl := Option.some.inj ht
    simp only [Server.next, Function.update_self, WorkerPc.attached, Option.some.injEq] at h
    exact Or.inr ⟨h.symm, compilers, order, rfl⟩
  | announce u me compilers mems =>
    obtain rfl := Option.some.inj ht
    simp only [Server.next, Function.update_self] at h
    exact Or.inl ⟨by rw [hen]; exact h, by simp⟩
  | loop u me l ev =>
    obtain rfl := Option.some.inj ht
    obtain ⟨d, l', -, heq⟩ := Server.next_loop hen
    rw [heq, Server.setWorker_same] at h
    exact Or.inl ⟨by rw [hen.1]; exact h, by simp⟩
  | find u me errno =>
    obtain rfl := Option.some.inj ht
    simp only [Server.next] at h
    split at h <;> rw [Server.setWorker_same] at h
    · exact Or.inl ⟨by rw [hen]; exact h, by simp⟩
    · cases h
  | unlist u me d | unmap u me d =>
    obtain rfl := Option.some.inj ht
    simp only [Server.next, Function.update_self] at h
    exact Or.inl ⟨by rw [hen]; exact h, by simp⟩
  | lock u me d =>
    obtain rfl := Option.some.inj ht
    refine Or.inl ⟨?_, by simp⟩
    rw [hen.1]
    simp only [Server.next] at h
    split at h <;> simpa [Server.setCall, Server.setWorker, WorkerPc.attached] using h
  | unslot u me d | finish u me d =>
    obtain rfl := Option.some.inj ht
    rw [Server.next, Server.setWorker_same] at h
    exact Or.inl ⟨by rw [hen.1]; exact h, by simp⟩
  | free u me d =>
    obtain rfl := Option.some.inj ht
    rw [Server.next, Server.setWorker_same] at h
    cases h
  | _ => cases ht

namespace Attached

theorem fresh (h : Attached s) (t : Tid) : (s.workers t).attached ≠ some s.nextClient :=
  fun ht => lt_irrefl _ (h.known t _ ht)

theorem step (h : Attached s) (hs : s.step a = some s') : Attached s' := by
  refine ⟨fun t c ht => ?_, fun t u c ht hu => ?_⟩
  · rcases attached_step hs ht with ⟨hold, -⟩ | ⟨rfl, compilers, order, rfl⟩
    · exact lt_of_lt_of_le (h.known t c hold) (nextClient_step hs)
    · obtain ⟨-, rfl⟩ := Server.step_some.1 hs
      exact Nat.lt_succ_self _
  · rcases attached_step hs ht with ⟨hold, -⟩ | ⟨rfl, compilers, order, rfl⟩
    · rcases attached_step hs hu with ⟨hold', -⟩ | ⟨rfl, -⟩
      · exact h.alone t u c hold hold'
      · exact absurd hold (h.fresh t)
    · rcases attached_step hs hu with ⟨hold', -⟩ | ⟨-, compilers', order', heq⟩
      · exact absurd hold' (h.fresh u)
      · injection heq

end Attached

theorem reaches_attached {db : Table} (h : Reaches db as s) : Attached s :=
  h.invariant (attached_init db) fun _ _ _ ha hs => ha.step hs

/-- A client that has been freed stays away: it is not created again. -/
theorem apart_step (hs : s.step a = some s') {c : ClientRef}
    (hknown : c < s.nextClient) (hmap : c ∉ s.clientsMap)
    (hfree : ∀ t, (s.workers t).attached = some c → ∃ me d, a = .free t me d) :
    c < s'.nextClient ∧ c ∉ s'.clientsMap ∧ ∀ t, (s'.workers t).attached ≠ some c := by
  refine ⟨lt_of_lt_of_le hknown (nextClient_step hs), fun hc => ?_, fun t ht => ?_⟩
  · rcases clientsMap_back hs hc with hold | ⟨rfl, -⟩
    · exact hmap hold
    · exact lt_irrefl _ hknown
  · rcases attached_step hs ht with ⟨hold, hother⟩ | ⟨rfl, -⟩
    · obtain ⟨me, d, heq⟩ := hfree t hold
      exact hother me d heq
    · exact lt_irrefl _ hknown

/-- A thread that is on its way out with a client was so before, or has just unmapped it. -/
theorem disposes_back (hs : s.step a = some s') {t : Tid} {c : ClientRef}
    (h : (s'.workers t).disposes = some c) :
    (s.workers t).disposes = some c ∨ ∃ me, a = .unmap t me c := by
  rcases entered_of_disposes h with hin | ⟨me, hw⟩
  · rcases entered_back hs hin with hold | ⟨me, rfl⟩
    · exact Or.inl (disposes_of_entered hold)
    · exact Or.inl (by rw [(Server.step_some.1 hs).1.1]; rfl)
  · rcases remove_back hs hw with hold | rfl
    · exact Or.inl (by rw [hold]; rfl)
    · exact Or.inr ⟨me, rfl⟩

/-- With unique ids a thread takes its own client out. -/
theorem attached_of_disposes (hn : Numbered s) {t : Tid} {c : ClientRef}
    (h : (s.workers t).disposes = some c) : (s.workers t).attached = some c := by
  cases hw : s.workers t with
  | remove me d pc =>
    obtain rfl := hn.own t me d pc hw
    rw [hw] at h
    exact removes_of_disposes h
  | _ =>
    rw [hw] at h
    cases h

namespace Kept

theorem step (hg : Guarded s) (hn : Numbered s) (ha : Attached s) (h : Kept as s)
    (hs : s.step a = some s') : Kept (as ++ [a]) s' := by
  -- a client that this step frees is the one of its thread
  have hfin : ∀ c ∈ freedClients [a], ∃ t, a = .free t c c ∧
      (s.workers t).attached = some c ∧ (s.workers t).disposes = some c := by
    intro c hc
    obtain ⟨t, me, rfl⟩ := mem_freedClients_single.1 hc
    have hw : s.workers t = .remove me c .free := (Server.step_some.1 hs).1
    obtain rfl := hn.own t me c _ hw
    exact ⟨t, rfl, by rw [hw]; rfl, by rw [hw]; rfl⟩
  refine ⟨?_, fun c hc => ?_, fun t c ht hc => ?_⟩
  · rw [freedClients_snoc, List.nodup_append]
    refine ⟨h.once, ?_, fun c hc d hd heq => ?_⟩
    · cases a <;> simp [freedClients]
    · subst heq
      obtain ⟨t, -, hatt, -⟩ := hfin c hd
      exact (h.apart c hc).2.2 t hatt
  · rw [freedClients_snoc, List.mem_append] at hc
    rcases hc with hold | hnow
    · obtain ⟨hknown, hmap, hfree⟩ := h.apart c hold
      exact apart_step hs hknown hmap fun t ht => absurd ht (hfree t)
    · obtain ⟨t, heq, hatt, hdisposes⟩ := hfin c hnow
      refine apart_step hs (ha.known t c hatt) (h.leaving t c hdisposes) fun u hu => ?_
      obtain rfl := ha.alone u t c hu hatt
      exact ⟨c, c, heq⟩
  · rcases disposes_back hs ht with hold | ⟨me, rfl⟩
    · rcases clientsMap_back hs hc with hmem | ⟨rfl, -⟩
      · exact h.leaving t c hold hmem
      · exact lt_irrefl _ (hg.removing t _ (removes_of_disposes hold))
    · obtain ⟨-, rfl⟩ := Server.step_some.1 hs
      simp [Server.next] at hc

theorem uses_live (hn : Numbered s) (h : Kept as s) (hen : s.enabled a) {c : ClientRef}
    (huse : c ∈ s.uses a) (hc : c ∈ freedClients as) : ∃ who sln, a = .append who sln c := by
  obtain ⟨-, hmap, hfree⟩ := h.apart c hc
  cases a with
  | register | choose => exact absurd huse hmap
  | loop t me l ev =>
    obtain rfl := List.mem_singleton.1 huse
    exact absurd (by rw [hen.1]; rfl) (hfree t)
  | unmap t me d =>
    rcases List.mem_cons.1 huse with rfl | hmem
    · obtain rfl := hn.own t me c _ hen
      exact absurd (by rw [hen]; rfl) (hfree t)
    · exact absurd hmem hmap
  | lock t me d | unslot t me d | pop t me d | finish t me d =>
    obtain rfl := List.mem_singleton.1 huse
    obtain rfl := hn.own t me c _ hen.1
    exact absurd (by rw [hen.1]; rfl) (hfree t)
  | free t me d =>
    obtain rfl := List.mem_singleton.1 huse
    obtain rfl := hn.own t me c _ hen
    exact absurd (by rw [hen]; rfl) (hfree t)
  | append who sln d =>
    obtain rfl := List.mem_singleton.1 huse
    exact ⟨who, sln, rfl⟩
  | _ => cases huse

end Kept

theorem reaches_kept {db : Table} (h : Reaches db as s)
    (hfresh : Along Server.step (.init db) as JoinsFresh) :
    Guarded s ∧ Numbered s ∧ Kept as s := by
  induction h with
  | nil => exact ⟨guarded_init db, numbered_init db, kept_init db⟩
  | snoc hr hs ih =>
    obtain ⟨hbefore, ha⟩ := (along_snoc hr).1 hfresh
    obtain ⟨hg, hn, hk⟩ := ih hbefore
    exact ⟨step_guarded hg hs, hn.step hg hs ha, hk.step hg hn (reaches_attached hr) hs⟩

/-- In every run whose clients all join with an id of their own. -/
theorem clients_freed (db : Table) (as : List Action) (s : Server) (h : Reaches db as s)
    (hfresh : Along Server.step (.init db) as JoinsFresh) : ClientsFreed as s := by
  obtain ⟨hg, hn, hk⟩ := reaches_kept h hfresh
  have ha := reaches_attached h
  have hattached := fun {t c} => attached_of_disposes (t := t) (c := c) hn
  refine ⟨hk.once, fun c => ⟨created_cases h, ?_⟩, fun t c ht => ⟨hk.leaving t c ht, fun u hu => ?_⟩,
    fun c hc => ⟨(hk.apart c hc).2.1, fun t => ⟨(hk.apart c hc).2.2 t, fun ht => ?_⟩⟩,
    fun a s' hs c huse hc => hk.uses_live hn (Server.step_some.1 hs).1 huse hc, fun hstop => ?_⟩
  · rintro (hmem | ⟨t, ht⟩ | hf)
    · exact hg.known c hmem
    · exact hg.removing t c (removes_of_disposes ht)
    · exact (hk.apart c hf).1
  · exact ha.alone u t c (hattached hu) (hattached ht)
  · exact (hk.apart c hc).2.2 t (hattached ht)
  · have hdisjoint : ∀ c ∈ freedClients as, ∀ d ∈ s.clientsMap, c ≠ d := by
      rintro c hc d hd rfl
      exact (hk.apart c hc).2.1 hd
    refine (List.perm_ext_iff_of_nodup (List.nodup_append.2 ⟨hk.once, hg.nodup, hdisjoint⟩)
      List.nodup_range).2 fun c => ?_
    rw [List.mem_append, List.mem_range]
    constructor
    · rintro (hf | hmem)
      · exact (hk.apart c hf).1
      · exact hg.known c hmem
    · intro hc
      rcases created_cases h hc with hmem | ⟨t, ht⟩ | hf
      · exact Or.inr hmem
      · -- no thread is inside a removal any more
        rcases hstop.workers t with hw | hw | ⟨me, e, hw⟩ <;> (rw [hw] at ht; cases ht)
      · exact Or.inl hf

/-- The client is freed before the solution is appended. -/
def staleRun : List Action := leavingRun ++ [.free 0 0 0]

/-- The append that follows is to freed memory. -/
theorem clients_freed_stale : ∃ s, Reaches oneNewRow staleRun s ∧
    freedClients staleRun = [0] ∧ (s.step (.append .poll (decodeRow 0 (sampleRow 1)) 0)).isSome ∧
      ClientsFreed staleRun s := by
  have hrun : Reaches oneNewRow staleRun _ := Run.iff_foldlM.2 rfl
  refine ⟨_, hrun, rfl, rfl, clients_freed oneNewRow staleRun _ hrun ?_⟩
  refine (along_cons rfl).2 ⟨trivial, ?_⟩
  refine (along_cons rfl).2 ⟨?_, along_of_forall fun a ha s => ?_⟩
  · exact fun c hc => nomatch hc
  · fin_cases ha <;> trivial

end JudgeServer
