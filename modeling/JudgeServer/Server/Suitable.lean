import JudgeServer.Server.Compilers
import JudgeServer.Server.Freed

/-! Where the solutions go: a client is only ever given solutions for compilers that it
has announced, whichever thread dispatches them and however often they are passed on. -/

namespace JudgeServer

open Transition

/-- The client has announced the compiler of the solution. -/
def Suits (as : List Action) (c : ClientRef) (sln : Solution) : Prop :=
  ∃ compilerId : UInt16, compilerId.toUInt32 = sln.compilerId ∧ Announced as c compilerId

theorem Suits.snoc {as : List Action} {c : ClientRef} {sln : Solution} (h : Suits as c sln)
    (a : Action) : Suits (as ++ [a]) c sln := by
  obtain ⟨compilerId, hid, hann⟩ := h
  exact ⟨compilerId, hid, announced_snoc.2 (Or.inl hann)⟩

/-- Everything that a client holds, that is being sent to it, or that is on its way. -/
structure SuitablyGiven (as : List Action) (s : Server) : Prop where
  queued : ∀ c, ∀ sln ∈ (s.clients c).solutionsQueue, Suits as c sln
  checking : ∀ c sln, (s.clients c).checkingSolution = some sln → Suits as c sln
  sending : ∀ t me sln e, s.workers t = .loop me ⟨.sending sln, e⟩ → Suits as me sln
  appending : ∀ who sln c, s.calls who = some ⟨sln, .append c⟩ → Suits as c sln

/-- A call that chooses does so from the entry of the solution's compiler. -/
def Choosing (s : Server) : Prop :=
  ∀ who sln k, s.calls who = some ⟨sln, .choose k⟩ →
    k ∈ s.compilersMap.chain ∧ (s.compilersMap.obj k).id.toUInt32 = sln.compilerId

namespace CompilersMap

variable {m : CompilersMap} {clientId : UInt32}

/-- The entries keep their ids. -/
theorem Keyed.announceAll_id {compilers : List UInt16} {mems : List Memory} (h : Keyed m)
    (hzero : ZeroRounds clientId compilers mems m) {k : CompilerRef} (hk : k ∈ m.chain) :
    ((CompilersMap.announceAll clientId compilers mems m).obj k).id = (m.obj k).id := by
  fun_induction CompilersMap.announceAll clientId compilers mems m with
  | case1 => rfl
  | case2 m compilerId ids ih | case3 m compilerId ids mem mems ih =>
    have hkeyed := (h.announce clientId hzero.1).1
    rw [ih hkeyed hzero.2 (chain_announce _ _ hk)]
    rcases h.announce_cases clientId hzero.1 with ⟨k', -, -, heq⟩ | ⟨-, -, heq⟩
    · rw [heq, addClient_id]
    · rw [heq, addClient_id, h.create_old hk]

theorem unlist_id (k : CompilerRef) : ((m.unlist clientId).obj k).id = (m.obj k).id := by
  simp only [CompilersMap.unlist]
  split_ifs <;> rfl

end CompilersMap

variable {as : List Action} {s s' : Server} {a : Action}

theorem id_kept (hkeyed : s.compilersMap.Keyed) (hs : s.step a = some s') (ha : JoinsClean s a)
    {k : CompilerRef} (hk : k ∈ s.compilersMap.chain) :
    (s'.compilersMap.obj k).id = (s.compilersMap.obj k).id := by
  by_cases hmaps : s'.compilersMap = s.compilersMap
  · rw [hmaps]
  · obtain ⟨hen, rfl⟩ := Server.step_some.1 hs
    cases a with
    | announce t me compilers mems => exact hkeyed.announceAll_id ha hk
    | unlist t me c => exact CompilersMap.unlist_id k
    | _ => exact absurd (compilersMap_same hs (by simp) (by simp)) hmaps

/-- What is sent was queued, or is being sent again. -/
theorem loop_sending {x y : Client × Locals} {ev : LoopEv} (h : loopStep x ev = some y)
    {sln : Solution} (hy : y.2.pc = .sending sln) :
    x.2.pc = .sending sln ∨ sln ∈ x.1.solutionsQueue := by
  obtain ⟨c, l⟩ := x
  cases loopStep_rule h with
  | push | errno => exact Or.inl hy
  | @running e b => cases b <;> cases hy
  | idle | post | clear => cases hy
  | pop hpop =>
    obtain rfl := LoopPc.sending.inj hy
    right
    rw [(popSolution_some hpop).1]
    exact List.mem_cons_self
  | @send e sln' calls t hsend =>
    left
    simp only [afterSend] at hy
    split at hy
    · exact hy
    · split_ifs at hy
  | recvLen hrecv =>
    simp only [afterRecvLen] at hy
    split_ifs at hy
  | recvBody hrecv =>
    simp only [afterRecvBody, decodePacket] at hy
    split_ifs at hy

theorem sending_step (hs : s.step a = some s') {t : Tid} {me : ClientRef} {sln : Solution}
    {e : Errno} (h : s'.workers t = .loop me ⟨.sending sln, e⟩) :
    (∃ e', s.workers t = .loop me ⟨.sending sln, e'⟩) ∨ sln ∈ (s.clients me).solutionsQueue := by
  by_cases ht : Server.thread a = some t
  swap
  · rw [Server.workers_other hs ht] at h
    exact Or.inl ⟨e, h⟩
  obtain ⟨hen, rfl⟩ := Server.step_some.1 hs
  cases a with
  | loop u me' l ev =>
    obtain rfl := Option.some.inj ht
    obtain ⟨c, l', hstep, heq⟩ := Server.next_loop hen
    rw [heq, Server.setWorker_same] at h
    obtain ⟨rfl, rfl⟩ := WorkerPc.loop.inj h
    rcases loop_sending hstep rfl with hpc | hmem
    · left
      obtain ⟨pc, e'⟩ := l
      obtain rfl : pc = .sending sln := hpc
      exact ⟨e', hen.1⟩
    · exact Or.inr hmem
  | find u me' errno =>
    obtain rfl := Option.some.inj ht
    simp only [Server.next] at h
    split at h <;> simp [Server.setWorker] at h
  | lock u me' d =>
    obtain rfl := Option.some.inj ht
    simp only [Server.next] at h
    split at h <;> simp [Server.setWorker, Server.setCall, Server.setClient] at h
  | accept | register | announce | unlist | unmap | unslot | finish | free =>
    obtain rfl := Option.some.inj ht
    simp [Server.next, Server.setWorker] at h
  | _ => cases ht

theorem choosing_new (hs : s.step a = some s') {who : Who} {sln : Solution} {k : CompilerRef}
    (h : s'.calls who = some ⟨sln, .choose k⟩) :
    s.calls who = some ⟨sln, .choose k⟩ ∨ s.compilersMap.find sln.compilerId = some k := by
  by_cases hwho : Server.caller a = some who
  swap
  · rw [Server.calls_other hs hwho] at h
    exact Or.inl h
  obtain ⟨hen, rfl⟩ := Server.step_some.1 hs
  cases a with
  | lookup w sln' =>
    obtain rfl := Option.some.inj hwho
    simp only [Server.next] at h
    split at h
    · rename_i k' hfind
      rw [Server.setCall_same] at h
      obtain ⟨rfl, rfl⟩ : sln' = sln ∧ k' = k := by simpa using h
      exact Or.inr hfind
    · simp at h
  | choose w sln' k' ok =>
    obtain rfl := Option.some.inj hwho
    simp only [Server.next] at h
    split at h <;> simp at h
  | lock t me c =>
    obtain rfl := Option.some.inj hwho
    simp only [Server.next] at h
    split at h
    · simp at h
    · exact Or.inl h
  | pop | noCompiler | append | dispatch =>
    obtain rfl := Option.some.inj hwho
    simp [Server.next] at h
  | _ => cases hwho

theorem appending_new (hs : s.step a = some s') {who : Who} {sln : Solution} {c : ClientRef}
    (h : s'.calls who = some ⟨sln, .append c⟩) : s.calls who = some ⟨sln, .append c⟩ ∨
      ∃ k, s.calls who = some ⟨sln, .choose k⟩ ∧ s.chooseFrom k = some c := by
  by_cases hwho : Server.caller a = some who
  swap
  · rw [Server.calls_other hs hwho] at h
    exact Or.inl h
  obtain ⟨hen, rfl⟩ := Server.step_some.1 hs
  cases a with
  | choose w sln' k' ok =>
    obtain rfl := Option.some.inj hwho
    simp only [Server.next] at h
    split at h
    · rename_i d hchoose
      rw [Server.setCall_same] at h
      obtain ⟨rfl, rfl⟩ : sln' = sln ∧ d = c := by simpa using h
      exact Or.inr ⟨k', hen, hchoose⟩
    · simp at h
  | lookup w sln' =>
    obtain rfl := Option.some.inj hwho
    simp only [Server.next] at h
    split at h <;> simp at h
  | lock t me d =>
    obtain rfl := Option.some.inj hwho
    simp only [Server.next] at h
    split at h
    · simp at h
    · exact Or.inl h
  | pop | noCompiler | append | dispatch =>
    obtain rfl := Option.some.inj hwho
    simp [Server.next] at h
  | _ => cases hwho

theorem Choosing.step (h : Choosing s) (hkeyed : s.compilersMap.Keyed)
    (hs : s.step a = some s') (ha : JoinsClean s a) : Choosing s' := by
  intro who sln k hcall
  have hold : k ∈ s.compilersMap.chain ∧ (s.compilersMap.obj k).id.toUInt32 = sln.compilerId := by
    rcases choosing_new hs hcall with hcall | hfind
    · exact h who sln k hcall
    · exact hkeyed.find_some.1 hfind
  exact ⟨Listed.chain_step hs hold.1, by rw [id_kept hkeyed hs ha hold.1, hold.2]⟩

theorem SuitablyGiven.step (hg : Guarded s) (h : SuitablyGiven as s) (hch : Choosing s)
    (hn : Numbered s) (hann : Announcements as s) (hs : s.step a = some s') : SuitablyGiven (as ++ [a]) s' := by
  refine ⟨fun c sln hmem => ?_, fun c sln hslot => ?_, fun t me sln e hw => ?_,
    fun who sln c hcall => ?_⟩
  · rcases queue_given hs hmem with hold | ⟨who, hcall⟩
    · exact (h.queued c sln hold).snoc a
    · exact (h.appending who sln c hcall).snoc a
  · rcases slot_given hg hs hslot with hmem | ⟨hold, -⟩
    · exact (h.queued c sln hmem).snoc a
    · exact (h.checking c sln hold).snoc a
  · rcases sending_step hs hw with ⟨e', hold⟩ | hmem
    · exact (h.sending t me sln e' hold).snoc a
    · exact (h.queued me sln hmem).snoc a
  · rcases appending_new hs hcall with hold | ⟨k, hchoosing, hchosen⟩
    · exact (h.appending who sln c hold).snoc a
    · -- the client was found under an id of the list of the compiler's entry
      obtain ⟨hk, hkey⟩ := hch who sln k hchoosing
      rcases chooseClient_mem hchosen with hbest | ⟨id, hid, hfound⟩
      · cases hbest
      obtain ⟨d, hd, -, hannounced⟩ := hann.find_listed hn hk hid
      obtain rfl := Option.some.inj (hd.symm.trans hfound)
      exact Suits.snoc ⟨_, hkey, hannounced⟩ a

end JudgeServer
