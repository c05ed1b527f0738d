import JudgeServer.Server.Accounting
import JudgeServer.Server.Removal

/-! The clients that `remove_client` has freed. Nothing but a later step that still uses such
a client puts anything into it, so in a run without one it stays empty. -/

namespace JudgeServer

open Transition

/-- What `remove_client` has passed to `client_free`. -/
def freedClients (as : List Action) : List ClientRef :=
  as.filterMap fun
    | .free _ _ c => some c
    | _ => none

/-- The client objects whose memory a step may read or write. The operations on
`clients_map` go by way of the clients that are in it; the look-up at the beginning of
`remove_client` is left out, which without the mutex may meet any client. -/
def Server.uses (s : Server) : Action → List ClientRef
  | .register _ _ _ | .choose _ _ _ _ => s.clientsMap
  | .loop _ me _ _ => [me]
  | .unmap _ _ c => c :: s.clientsMap
  | .lock _ _ c | .unslot _ _ c | .pop _ _ c _ _ | .finish _ _ c | .free _ _ c
  | .append _ _ c => [c]
  | _ => []

/-- No step of the run uses a client that has been freed before. -/
def Untouched (db : Table) (as : List Action) : Prop :=
  ∀ pre a post s, as = pre ++ a :: post → Reaches db pre s → ∀ c ∈ s.uses a, c ∉ freedClients pre

/-- The client that the thread has taken out of `clients_map` and not freed yet. -/
def WorkerPc.disposes : WorkerPc → Option ClientRef
  | .remove _ c .lock | .remove _ c .slot | .remove _ c .drain | .remove _ c .free => some c
  | _ => none

variable {db : Table} {as : List Action} {s s' : Server} {a : Action}

theorem freedClients_snoc (a : Action) :
    freedClients (as ++ [a]) = freedClients as ++ freedClients [a] := by
  simp only [freedClients, List.filterMap_append]

theorem mem_freedClients_single {c : ClientRef} :
    c ∈ freedClients [a] ↔ ∃ t me, a = .free t me c := by
  cases a <;> simp [freedClients, eq_comm]

theorem untouched_snoc (hr : Reaches db as s) :
    Untouched db (as ++ [a]) ↔ Untouched db as ∧ ∀ c ∈ s.uses a, c ∉ freedClients as := by
  constructor
  · intro h
    refine ⟨fun pre b post t he ht => ?_, h as a [] s rfl hr⟩
    exact h pre b (post ++ [a]) t (by simp [he]) ht
  · rintro ⟨hbefore, hlast⟩ pre b post t he ht
    rcases List.eq_nil_or_concat post with rfl | ⟨post, x, rfl⟩
    · obtain ⟨rfl, hb⟩ := List.append_inj' he rfl
      obtain rfl := List.head_eq_of_cons_eq hb
      rwa [← hr.unique ht]
    · rw [List.concat_eq_append, ← List.cons_append, ← List.append_assoc] at he
      exact hbefore pre b post t (List.append_inj' he rfl).1 ht

theorem untouched_of_none (h : freedClients as = []) : Untouched db as := by
  rintro pre a post s rfl - c -
  rw [freedClients, List.filterMap_append, List.append_eq_nil_iff] at h
  rw [freedClients, h.1]
  exact List.not_mem_nil

theorem disposes_of_unmapped {pc : WorkerPc} {c : ClientRef} (h : pc.unmapped = some c) :
    pc.disposes = some c := by
  unfold WorkerPc.unmapped at h
  split at h <;> first | exact h | cases h

theorem removes_of_disposes {pc : WorkerPc} {c : ClientRef} (h : pc.disposes = some c) :
    pc.removes = some c := by
  unfold WorkerPc.disposes at h
  split at h <;> first | exact h | cases h

theorem disposes_cases {pc : WorkerPc} {c : ClientRef} (h : pc.disposes = some c) :
    pc.unmapped = some c ∨ ∃ me, pc = .remove me c .free := by
  unfold WorkerPc.disposes at h
  split at h
  · exact Or.inl h
  · exact Or.inl h
  · exact Or.inl h
  · obtain rfl := Option.some.inj h
    exact Or.inr ⟨_, rfl⟩
  · cases h

theorem disposes_of_entered {pc : WorkerPc} {c : ClientRef} (h : pc.entered = some c) :
    pc.disposes = some c := by
  unfold WorkerPc.entered at h
  split at h <;> first | exact h | cases h

theorem entered_of_disposes {pc : WorkerPc} {c : ClientRef} (h : pc.disposes = some c) :
    pc.entered = some c ∨ ∃ me, pc = .remove me c .lock := by
  unfold WorkerPc.disposes at h
  split at h
  · obtain rfl := Option.some.inj h
    exact Or.inr ⟨_, rfl⟩
  · exact Or.inl h
  · exact Or.inl h
  · exact Or.inl h
  · cases h

/-- The thread that has taken a client out of the map keeps at it until it frees it. -/
theorem disposes_step (hs : s.step a = some s') {t : Tid} {c : ClientRef}
    (h : (s.workers t).disposes = some c) :
    (s'.workers t).disposes = some c ∨ ∃ me, a = .free t me c := by
  rcases disposes_cases h with hun | ⟨me, hw⟩
  · by_cases hfin : ∃ me, a = .finish t me c
    · obtain ⟨me, rfl⟩ := hfin
      obtain ⟨-, rfl⟩ := Server.step_some.1 hs
      left
      rw [Server.next, Server.setWorker_same]
      rfl
    · exact Or.inl (disposes_of_unmapped (unmapped_step hs hun fun me heq => hfin ⟨me, heq⟩))
  · by_cases ht : Server.thread a = some t
    swap
    · rw [Server.workers_other hs ht]
      exact Or.inl h
    obtain ⟨hen, -⟩ := Server.step_some.1 hs
    cases a with
    | free u me' d =>
      obtain rfl := Option.some.inj ht
      obtain ⟨-, rfl, -⟩ := WorkerPc.remove.inj (hw.symm.trans hen)
      exact Or.inr ⟨me', rfl⟩
    | accept | register | announce | find | unlist | unmap =>
      obtain rfl := Option.some.inj ht
      cases hw.symm.trans hen
    | loop | lock | unslot | finish =>
      obtain rfl := Option.some.inj ht
      cases hw.symm.trans hen.1
    | _ => cases ht

theorem nextClient_same (hs : s.step a = some s')
    (hreg : ∀ t compilers order, a ≠ .register t compilers order) :
    s'.nextClient = s.nextClient := by
  obtain ⟨hen, rfl⟩ := Server.step_some.1 hs
  cases a with
  | register t compilers order => exact absurd rfl (hreg t compilers order)
  | loop t me l ev =>
    obtain ⟨c, l', -, heq⟩ := Server.next_loop hen
    rw [heq]
    exact s.postEffect_induct (P := fun r => r.nextClient = s.nextClient) l ev rfl fun _ _ => rfl
  | submit | find | lock | lookup | choose =>
    simp only [Server.next]
    split <;> rfl
  | query e ok =>
    obtain ⟨stmt, -, heq⟩ := Server.next_query hen
    rw [heq, Server.afterQuery_nextClient]
    rfl
  | _ => rfl

/-- Every client that was created is registered, on its way out, or freed. -/
theorem created_cases (h : Reaches db as s) {c : ClientRef} (hc : c < s.nextClient) :
    c ∈ s.clientsMap ∨ (∃ t, (s.workers t).disposes = some c) ∨ c ∈ freedClients as := by
  induction h with
  | nil => simp [Server.init] at hc
  | @snoc as a s s' hr hs ih =>
    rw [freedClients_snoc, List.mem_append]
    have hnew : c < s.nextClient ∨ c ∈ s'.clientsMap := by
      by_cases hreg : ∃ t compilers order, a = .register t compilers order
      · obtain ⟨t, compilers, order, rfl⟩ := hreg
        obtain ⟨-, rfl⟩ := Server.step_some.1 hs
        rcases Nat.lt_succ_iff_lt_or_eq.1 hc with hlt | rfl
        · exact Or.inl hlt
        · exact Or.inr (mem_rehash.2 List.mem_cons_self)
      · rw [nextClient_same hs fun t compilers order heq => hreg ⟨t, compilers, order, heq⟩] at hc
        exact Or.inl hc
    rcases hnew with hold | hmem
    swap
    · exact Or.inl hmem
    rcases ih hold with hmem | ⟨t, ht⟩ | hfreed
    · rcases map_step hs hmem with hmem | ⟨t, me, hlock⟩
      · exact Or.inl hmem
      · exact Or.inr (Or.inl ⟨t, by rw [hlock]; rfl⟩)
    · rcases disposes_step hs ht with ht | ⟨me, rfl⟩
      · exact Or.inr (Or.inl ⟨t, ht⟩)
      · exact Or.inr (Or.inr (Or.inr (mem_freedClients_single.2 ⟨t, me, rfl⟩)))
    · exact Or.inr (Or.inr (Or.inl hfreed))

/-- Only the registration and the uses of a client change it. -/
theorem client_uses {c : ClientRef} (h : s.client a = some c) :
    c ∈ s.uses a ∨ c = s.nextClient ∧ ∃ t compilers order, a = .register t compilers order := by
  cases a with
  | register t compilers order => exact Or.inr ⟨(Option.some.inj h).symm, t, compilers, order, rfl⟩
  | loop | lock | unslot | pop | finish | free | append =>
    obtain rfl := Option.some.inj h
    exact Or.inl (List.mem_singleton_self _)
  | _ => cases h

/-- In a run that uses no freed client these hold nothing. -/
theorem freed_empty (h : Reaches db as s) (hsafe : Untouched db as) {c : ClientRef}
    (hc : c ∈ freedClients as) :
    c < s.nextClient ∧ (s.clients c).solutionsQueue = [] ∧ (s.clients c).checkingSolution = none := by
  induction h with
  | nil => cases hc
  | @snoc as a s s' hr hs ih =>
    obtain ⟨hbefore, hlast⟩ := (untouched_snoc hr).1 hsafe
    rw [freedClients_snoc, List.mem_append] at hc
    rcases hc with hold | hnow
    · obtain ⟨hlt, hqueue, hslot⟩ := ih hbefore hold
      have hother : s.client a ≠ some c := by
        intro hclient
        rcases client_uses hclient with huse | ⟨rfl, -⟩
        · exact hlast c huse hold
        · exact lt_irrefl _ hlt
      rw [Server.clients_other hs hother]
      exact ⟨hlt.trans_le (nextClient_step hs), hqueue, hslot⟩
    · obtain ⟨t, me, rfl⟩ := mem_freedClients_single.1 hnow
      have hlt := (reaches_guarded hr).removing t c (by rw [(Server.step_some.1 hs).1]; rfl)
      refine ⟨hlt.trans_le (nextClient_step hs), ?_⟩
      obtain ⟨-, rfl⟩ := Server.step_some.1 hs
      constructor <;> simp [Server.next, Server.setWorker, Server.setClient]

end JudgeServer
