import JudgeServer.Server.Dispatch
import JudgeServer.Server.Lists

/-! What becomes of every solution object: it is dispatched, queued, outstanding or in
a thread's hands, or it has left by one of four exits, the release after a result,
the overwriting of a checking slot, the refusal by `push_solution`, and `client_free`,
which finds what was pushed to the client after its queue had been emptied. Over every
run no object is unaccounted for and none is accounted for twice. -/

namespace JudgeServer

open Transition Placement

/-- How an object leaves the places of the server. -/
inductive Exit
  | released
  | overwritten
  | refused
  | discarded
  deriving DecidableEq, Repr

/-- The objects that `client_free` passes to `solution_free`. -/
def clientFree (c : Client) : List Solution := c.solutionsQueue ++ c.checkingSolution.toList

namespace Server

/-- `solution_free(checked_sln)` in the OP_RESULT branch. -/
def releases (s : Server) : Action → List Solution
  | .loop _ me _ .clear => (s.clients me).checkingSolution.toList
  | _ => []

/-- `client->checking_solution = sln` in `process_solutions` over a pointer that is
not NULL: nothing points to the old object any more. -/
def overwrites (s : Server) : Action → List Solution
  | .loop _ me _ .process =>
    if (s.clients me).solutionsQueue = [] then [] else (s.clients me).checkingSolution.toList
  | _ => []

/-- The error returns of `push_solution`, after which its callers forget the object. -/
def refuses (s : Server) : Action → List Solution
  | .noCompiler _ sln _ => [sln]
  | .choose _ sln k _ => if s.chooseFrom k = none then [sln] else []
  | _ => []

/-- `client_free` at the end of `remove_client`. -/
def discards (s : Server) : Action → List Solution
  | .free _ _ c => clientFree (s.clients c)
  | _ => []

def departs (s : Server) (a : Action) : Exit → List Solution
  | .released => s.releases a
  | .overwritten => s.overwrites a
  | .refused => s.refuses a
  | .discarded => s.discards a

end Server

/-- No client is freed, and its mutex destroyed, while another thread is inside of it. -/
def FreesUnlocked (s : Server) : Action → Prop
  | .free _ _ c => (s.clients c).locked = false
  | _ => True

/-- Clients that have not been created hold nothing, and nobody is about to push to
them. -/
structure Unborn (s : Server) : Prop where
  empty : ∀ c, s.nextClient ≤ c →
    (s.clients c).solutionsQueue = [] ∧ (s.clients c).checkingSolution = none
  appending : ∀ who sln c, s.calls who = some ⟨sln, .append c⟩ → c < s.nextClient

theorem unborn_init (db : Table) : Unborn (.init db) where
  empty := by simp [Server.init, clientCreate]
  appending := by simp [Server.init]

/-- The client that a step changes has been created, or it is the one that joins. -/
theorem client_known {s : Server} {a : Action} {c : ClientRef} (hg : Guarded s) (hl : Listed s)
    (h : Unborn s) (hen : s.enabled a) (hc : s.client a = some c) :
    c < s.nextClient ∨ ∃ t compilers order, a = .register t compilers order := by
  cases a with
  | register t compilers order => exact Or.inr ⟨t, compilers, order, rfl⟩
  | loop t me l ev =>
    obtain rfl := Option.some.inj hc
    exact Or.inl (hl.born t me (by rw [hen.1]; rfl))
  | lock t me d | unslot t me d | pop t me d sln rest | finish t me d =>
    obtain rfl := Option.some.inj hc
    exact Or.inl (hg.removing t d (by rw [hen.1]; rfl))
  | free t me d =>
    obtain rfl := Option.some.inj hc
    exact Or.inl (hg.removing t d (by rw [hen]; rfl))
  | append who sln d =>
    obtain rfl := Option.some.inj hc
    exact Or.inl (h.appending who sln d hen.1)
  | _ => cases hc

/-- A call that is about to push after a step was so before, or it has just chosen. -/
theorem appending_step {s s' : Server} {a : Action} (hs : s.step a = some s') {who : Who}
    {sln : Solution} {c : ClientRef} (hcall : s'.calls who = some ⟨sln, .append c⟩) :
    s.calls who = some ⟨sln, .append c⟩ ∨ c ∈ s.clientsMap := by
  by_cases hwho : Server.caller a = some who
  swap
  · rw [Server.calls_other hs hwho] at hcall
    exact Or.inl hcall
  obtain ⟨hen, rfl⟩ := Server.step_some.1 hs
  cases a with
  | lock t me d =>
    obtain rfl := Option.some.inj hwho
    simp only [Server.next] at hcall
    split at hcall
    · rw [Server.setCall_same] at hcall
      cases hcall
    · exact Or.inl hcall
  | lookup w sln' =>
    obtain rfl := Option.some.inj hwho
    simp only [Server.next] at hcall
    split at hcall <;> (rw [Server.setCall_same] at hcall; cases hcall)
  | choose w sln' k ok =>
    obtain rfl := Option.some.inj hwho
    simp only [Server.next] at hcall
    split at hcall
    · rename_i d hchoose
      rw [Server.setCall_same] at hcall
      obtain ⟨-, hpc⟩ := PushCall.mk.inj (Option.some.inj hcall)
      obtain rfl := PushPc.append.inj hpc
      exact Or.inr (chooseFrom_mem hchoose)
    · rw [Server.setCall_same] at hcall
      cases hcall
  | pop | noCompiler | append | dispatch =>
    obtain rfl := Option.some.inj hwho
    simp only [Server.next, Server.setCall_same] at hcall
    cases hcall
  | _ => cases hwho

theorem step_unborn {s s' : Server} {a : Action} (hg : Guarded s) (hl : Listed s) (h : Unborn s)
    (hs : s.step a = some s') : Unborn s' := by
  have hnext := nextClient_step hs
  refine ⟨fun c hc => ?_, fun who sln c hcall => ?_⟩
  · have hnone : s'.clients c = s.clients c := by
      refine Server.clients_other hs fun hclient => ?_
      obtain ⟨hen, rfl⟩ := Server.step_some.1 hs
      rcases client_known hg hl h hen hclient with hlt | ⟨t, compilers, order, rfl⟩
      · exact absurd (lt_of_lt_of_le hlt (hnext.trans hc)) (lt_irrefl c)
      · obtain rfl := Option.some.inj hclient
        exact Nat.not_succ_le_self _ hc
    rw [hnone]
    exact h.empty c (hnext.trans hc)
  · refine lt_of_lt_of_le ?_ hnext
    rcases appending_step hs hcall with hold | hmem
    · exact h.appending who sln c hold
    · exact hg.known c hmem

/-! What one step takes away. -/

/-- The departures of a step that lets no object go. -/
theorem departs_nil {s : Server} {a : Action} (hreleases : s.releases a = [])
    (hoverwrites : s.overwrites a = []) (hrefuses : s.refuses a = [])
    (hdiscards : s.discards a = []) : s.departs a = fun _ => [] := by
  funext e
  cases e with
  | released => exact hreleases
  | overwritten => exact hoverwrites
  | refused => exact hrefuses
  | discarded => exact hdiscards

theorem departs_none {s s' : Server} {a : Action} (hout : s.departs a = fun _ => [])
    (hkept : ∀ p, ∀ x ∈ s.holds p, ∃ q, x ∈ s'.holds q)
    (htaken : ∀ x ∈ s.issues a, ∃ q, x ∈ s'.holds q) :
    Departs Solution.addr s.holds (s.issues a) (s.departs a) s'.holds := by
  rw [hout]
  exact .none hkept htaken

/-- Nothing changes its place. -/
theorem departs_same {s s' : Server} {a : Action} (hout : s.departs a = fun _ => [])
    (hissues : s.issues a = []) (hholds : ∀ r, s'.holds r = s.holds r) :
    Departs Solution.addr s.holds (s.issues a) (s.departs a) s'.holds :=
  departs_none hout (fun p _ hx => ⟨p, by rwa [hholds p]⟩) (by simp [hissues])

/-- The polling thread has nothing to dispatch. -/
theorem holds_todo_other {s : Server} (h : ∀ rest, s.poll ≠ .dispatch rest) :
    s.holds .todo = [] := by
  cases hpoll : s.poll with
  | dispatch rest => exact absurd hpoll (h rest)
  | _ => simp only [Server.holds, hpoll]

/-- The polling thread goes on, and there is nothing to dispatch. -/
theorem holds_poll {s s' : Server} (hold : s.holds .todo = []) (htodo : s'.holds .todo = [])
    (hcalls : s'.calls = s.calls) (hclients : s'.clients = s.clients) (r : Place) :
    s'.holds r = s.holds r := by
  cases r with
  | todo => rw [hold, htodo]
  | _ => simp only [Server.holds, hcalls, hclients]

/-- A place hands one object to another, and the rest stays where it is. -/
theorem departs_move {s s' : Server} {a : Action} (hout : s.departs a = fun _ => [])
    (hissues : s.issues a = []) (p q : Place) {x : Solution} {rest : List Solution}
    (hfrom : s.holds p = x :: rest) (hp : s'.holds p = rest) (hq : s'.holds q = s.holds q ++ [x])
    (hrest : ∀ r, r ≠ p → r ≠ q → s'.holds r = s.holds r) :
    Departs Solution.addr s.holds (s.issues a) (s.departs a) s'.holds := by
  refine departs_none hout (fun r y hy => ?_) (by simp [hissues])
  by_cases hrp : r = p
  · subst hrp
    rw [hfrom, List.mem_cons] at hy
    rcases hy with rfl | hy
    · exact ⟨q, by simp [hq]⟩
    · exact ⟨r, by rwa [hp]⟩
  by_cases hrq : r = q
  · subst hrq
    exact ⟨r, by rw [hq]; exact List.mem_append_left _ hy⟩
  · exact ⟨r, by rwa [hrest r hrp hrq]⟩

/-- A call of `push_solution` ends with an error. -/
theorem departs_refused {s s' : Server} {a : Action} (hd : Dispatched s) {who : Who}
    {sln : Solution} {pc : PushPc} (hcall : s.calls who = some ⟨sln, pc⟩)
    (hout : s.departs a = fun e => if e = .refused then [sln] else []) (hissues : s.issues a = [])
    (hholds : s'.holds = (s.setCall who none).holds) :
    Departs Solution.addr s.holds (s.issues a) (s.departs a) s'.holds := by
  have hhand : s.holds (.hand who) = [sln] := by simp [Server.holds, hcall]
  rw [hissues, hholds]
  refine .single hd.exclusive hhand (e := .refused) (by simp [hout]) (fun e he => by simp [hout, he])
    (fun q y hy => ?_) fun q hq y hy => ⟨q, by rwa [Server.holds_setCall_rest hq]⟩
  by_cases hq : q = .hand who
  · subst hq
    simp at hy
  · rw [Server.holds_setCall_rest hq] at hy
    exact ⟨q, hq, hy⟩

/-- The loop of a client. -/
theorem departs_loop {s : Server} {t : Tid} {me : ClientRef} {l : Locals} {ev : LoopEv}
    (hd : Dispatched s) (hen : s.enabled (.loop t me l ev)) :
    Departs Solution.addr s.holds (s.issues (.loop t me l ev)) (s.departs (.loop t me l ev))
      (s.next (.loop t me l ev)).holds := by
  obtain ⟨c, l', hstep, heq⟩ := Server.next_loop hen
  obtain ⟨-, hadmit, -⟩ := hen
  have hid : c.locked = (s.clients me).locked := (loopStep_identity hstep).2
  have hnext : ∀ r, (s.next (.loop t me l ev)).holds r = (s.setClient me c).holds r := by
    intro r
    rw [heq, Server.holds_setWorker]
    by_cases hq : r = .queue me
    · subst hq
      rw [Server.holds_setClient_queue, Server.holds_setClient_queue]
    by_cases hs : r = .slot me
    · subst hs
      rw [Server.holds_setClient_slot, Server.holds_setClient_slot]
    · rw [Server.holds_setClient_rest hq hs, Server.holds_setClient_rest hq hs,
        Server.holds_postEffect]
  have hrest : ∀ r, r ≠ .queue me → r ≠ .slot me →
      (s.next (.loop t me l ev)).holds r = s.holds r := by
    intro r hq hs
    rw [hnext r, Server.holds_setClient_rest hq hs]
  have hqueue' : (s.next (.loop t me l ev)).holds (.queue me) = c.solutionsQueue := by
    rw [hnext, Server.holds_setClient_queue]
  have hslot' : (s.next (.loop t me l ev)).holds (.slot me) =
      if (s.clients me).locked then [] else c.checkingSolution.toList := by
    rw [hnext, Server.holds_setClient_slot, hid]
  cases loopStep_holding hstep with
  | @pop _ sln hqueue hslot =>
    have hfree : (s.clients me).locked = false := by simpa [Server.admits] using hadmit
    have hslot : c.checkingSolution = some sln := hslot
    have hne : (s.clients me).solutionsQueue ≠ [] := by
      have hqueue : (s.clients me).solutionsQueue = sln :: c.solutionsQueue := hqueue
      simp [hqueue]
    rw [hslot, hfree] at hslot'
    cases hold : (s.clients me).checkingSolution with
    | none =>
      refine departs_move (departs_nil rfl ?_ rfl rfl) rfl (.queue me) (.slot me) hqueue hqueue' ?_
        hrest
      · simp [Server.overwrites, hold]
      · rw [hslot']
        simp [Server.holds, hfree, hold]
    | some old =>
      have hf : s.holds (.slot me) = [old] := by simp [Server.holds, hfree, hold]
      refine .single hd.exclusive hf (e := .overwritten) ?_ (fun e he => ?_) (fun q y hy => ?_)
        fun q hq y hy => ?_
      · simp [Server.departs, Server.overwrites, hne, hold]
      · cases e <;> simp_all [Server.departs, Server.releases, Server.refuses, Server.discards]
      · by_cases hqs : q = .slot me
        · subst hqs
          rw [hslot'] at hy
          refine ⟨.queue me, by simp, ?_⟩
          rw [show s.holds (.queue me) = sln :: c.solutionsQueue from hqueue]
          simpa using Or.inl hy
        by_cases hqq : q = .queue me
        · subst hqq
          rw [hqueue'] at hy
          refine ⟨.queue me, by simp, ?_⟩
          rw [show s.holds (.queue me) = sln :: c.solutionsQueue from hqueue]
          exact List.mem_cons_of_mem sln hy
        · rw [hrest q hqq hqs] at hy
          exact ⟨q, hqs, hy⟩
      · by_cases hqq : q = .queue me
        · subst hqq
          rw [show s.holds (.queue me) = sln :: c.solutionsQueue from hqueue, List.mem_cons] at hy
          rcases hy with rfl | hy
          · exact ⟨.slot me, by simp [hslot']⟩
          · exact ⟨.queue me, by rwa [hqueue']⟩
        · exact ⟨q, by rwa [hrest q hqq hq]⟩
  | clear heq =>
    have hfree : (s.clients me).locked = false := by simpa [Server.admits] using hadmit
    obtain rfl := heq
    have hslot' : (s.next (.loop t me l .clear)).holds (.slot me) = [] := by
      rw [hslot', hfree]
      rfl
    have hqueue' : (s.next (.loop t me l .clear)).holds (.queue me) = s.holds (.queue me) := hqueue'
    have hkept : ∀ q, q ≠ .slot me → (s.next (.loop t me l .clear)).holds q = s.holds q := by
      intro q hq
      by_cases hqq : q = .queue me
      · rw [hqq, hqueue']
      · exact hrest q hqq hq
    cases hold : (s.clients me).checkingSolution with
    | none =>
      refine departs_none (departs_nil ?_ rfl rfl rfl) (fun p x hx => ?_) (by simp [Server.issues])
      · simp [Server.releases, hold]
      · by_cases hp : p = .slot me
        · subst hp
          simp [Server.holds, hold] at hx
        · exact ⟨p, by rwa [hkept p hp]⟩
    | some old =>
      have hf : s.holds (.slot me) = [old] := by simp [Server.holds, hfree, hold]
      refine .single hd.exclusive hf (e := .released) ?_ (fun e he => ?_) (fun q y hy => ?_)
        fun q hq y hy => ⟨q, by rwa [hkept q hq]⟩
      · simp [Server.departs, Server.releases, hold]
      · cases e <;> simp_all [Server.departs, Server.overwrites, Server.refuses, Server.discards]
      · by_cases hq : q = .slot me
        · subst hq
          simp [hslot'] at hy
        · rw [hkept q hq] at hy
          exact ⟨q, hq, hy⟩
  | push => simp [Server.admits] at hadmit
  | same hsame hproc hclear hpush =>
    refine departs_none ?_ (fun p x hx => ⟨p, ?_⟩) (by simp [Server.issues])
    · cases ev with
      | process =>
        have hempty : (s.clients me).solutionsQueue = [] := hproc rfl
        exact departs_nil rfl (if_pos hempty) rfl rfl
      | clear => exact absurd rfl hclear
      | _ => exact departs_nil rfl rfl rfl rfl
    · by_cases hpq : p = .queue me
      · subst hpq
        rw [hqueue']
        rwa [show c.solutionsQueue = _ from hsame.queue]
      by_cases hps : p = .slot me
      · subst hps
        rw [hslot']
        rwa [show c.checkingSolution = _ from hsame.slot]
      · rwa [hrest p hpq hps]

/-- What leaves the server in one step, and that everything else is still there. -/
theorem step_departs {s s' : Server} {a : Action} (hg : Guarded s) (hd : Dispatched s)
    (h : Unborn s) (hfree : FreesUnlocked s a) (hs : s.step a = some s') :
    Departs Solution.addr s.holds (s.issues a) (s.departs a) s'.holds := by
  obtain ⟨hen, rfl⟩ := Server.step_some.1 hs
  cases a with
  | loop t me l ev => exact departs_loop hd hen
  | noCompiler who sln ok =>
    refine departs_refused hd hen (funext fun e => by cases e <;> rfl) rfl ?_
    simp only [Server.next]
    exact Server.holds_congr rfl rfl rfl
  | choose who sln k ok =>
    simp only [Server.next]
    split
    · rename_i c hchoose
      refine departs_same (departs_nil rfl rfl ?_ rfl) rfl fun r => ?_
      · simp [Server.refuses, hchoose]
      · by_cases hr : r = .hand who
        · subst hr
          simp [Server.holds, show s.calls who = _ from hen]
        · rw [Server.holds_setCall_rest hr]
    · rename_i hchoose
      refine departs_refused hd hen (funext fun e => ?_) rfl (Server.holds_congr rfl rfl rfl)
      cases e with
      | refused => simp [Server.departs, Server.refuses, hchoose]
      | released | overwritten | discarded => rfl
  | register t compilers order =>
    refine departs_same (departs_nil rfl rfl rfl rfl) rfl fun r => ?_
    have heq : (s.next (.register t compilers order)).holds =
        (s.setClient s.nextClient (clientCreate s.lastClientId)).holds :=
      Server.holds_congr rfl rfl rfl
    obtain ⟨hqueue, hslot⟩ := h.empty s.nextClient le_rfl
    rw [heq]
    by_cases hq : r = .queue s.nextClient
    · subst hq
      rw [Server.holds_setClient_queue]
      exact hqueue.symm
    by_cases hsl : r = .slot s.nextClient
    · subst hsl
      rw [Server.holds_setClient_slot]
      simp [Server.holds, hslot, clientCreate]
    · rw [Server.holds_setClient_rest hq hsl]
  | lock t me c =>
    obtain ⟨hw, hfree⟩ := hen
    have hcall := hg.no_call (t := t) (by rw [hw]; rfl)
    have hout : s.departs (.lock t me c) = fun _ => [] := departs_nil rfl rfl rfl rfl
    simp only [Server.next]
    split
    · rename_i sln hslot
      have hfrom : s.holds (.slot c) = [sln] := by simp [Server.holds, hfree, hslot]
      refine departs_move hout rfl (.slot c) (.hand (.worker t)) hfrom ?_ ?_ fun r hp hq => ?_
      · rw [Server.holds_setCall_rest (by simp), Server.holds_setWorker,
          Server.holds_setClient_slot]
        rfl
      · rw [Server.holds_setCall_hand]
        simp [Server.holds, hcall]
      · rw [Server.holds_setCall_rest hq, Server.holds_setWorker]
        by_cases hrq : r = .queue c
        · subst hrq
          rw [Server.holds_setClient_queue]
          rfl
        · rw [Server.holds_setClient_rest hrq hp]
    · rename_i hslot
      refine departs_same hout rfl fun r => ?_
      rw [Server.holds_setWorker]
      by_cases hrq : r = .queue c
      · subst hrq
        rw [Server.holds_setClient_queue]
        rfl
      by_cases hrs : r = .slot c
      · subst hrs
        rw [Server.holds_setClient_slot]
        simp [Server.holds, hslot]
      · rw [Server.holds_setClient_rest hrq hrs]
  | unslot t me c =>
    have hlocked : (s.clients c).locked = true := (hg.locked_iff c).2 ⟨t, by rw [hen.1]; rfl⟩
    refine departs_same (departs_nil rfl rfl rfl rfl) rfl fun r => ?_
    simp only [Server.next, Server.holds_setWorker]
    by_cases hrs : r = .slot c
    · subst hrs
      rw [Server.holds_setClient_slot]
      simp [Server.holds, hlocked, Client.clearChecking]
    by_cases hrq : r = .queue c
    · subst hrq
      rw [Server.holds_setClient_queue]
      rfl
    · rw [Server.holds_setClient_rest hrq hrs]
  | pop t me c sln rest =>
    obtain ⟨-, hcall, hqueue⟩ := hen
    refine departs_move (departs_nil rfl rfl rfl rfl) rfl (.queue c) (.hand (.worker t))
      hqueue ?_ ?_ fun r hp hq => ?_
    · simp only [Server.next]
      rw [Server.holds_setCall_rest (by simp), Server.holds_setClient_queue]
    · simp only [Server.next, Server.holds_setCall_hand]
      simp [Server.holds, hcall]
    · simp only [Server.next]
      rw [Server.holds_setCall_rest hq, Server.holds_setQueue_rest hp]
  | finish t me c =>
    have hslot := hg.emptied t me c hen.1
    refine departs_same (departs_nil rfl rfl rfl rfl) rfl fun r => ?_
    simp only [Server.next, Server.holds_setWorker]
    by_cases hrs : r = .slot c
    · subst hrs
      rw [Server.holds_setClient_slot]
      simp [Server.holds, hslot]
    by_cases hrq : r = .queue c
    · subst hrq
      rw [Server.holds_setClient_queue]
      rfl
    · rw [Server.holds_setClient_rest hrq hrs]
  | free t me c =>
    have hunlocked : (s.clients c).locked = false := hfree
    have hps : [Place.queue c, .slot c].Nodup := by simp
    refine .emptied hd.exclusive (e := .discarded) hps ?_
      (fun e he => by cases e <;> first | rfl | exact absurd rfl he) (fun p hp => ?_) fun q hq => ?_
    · simp [Server.departs, Server.discards, clientFree, Server.holds, hunlocked]
    · simp only [Server.next, Server.holds_setWorker]
      rcases List.mem_pair.1 hp with rfl | rfl
      · rw [Server.holds_setClient_queue]
      · rw [Server.holds_setClient_slot]
        exact Server.slot_empty rfl
    · simp only [List.mem_cons, List.not_mem_nil, or_false, not_or] at hq
      rw [Server.next, Server.holds_setWorker, Server.holds_setClient_rest hq.1 hq.2]
  | lookup who sln =>
    have hcall : s.calls who = some ⟨sln, .lookup⟩ := hen
    have hsame : ∀ pc r, (s.setCall who (some ⟨sln, pc⟩)).holds r = s.holds r := by
      intro pc r
      by_cases hr : r = .hand who
      · subst hr
        simp [Server.holds, hcall]
      · rw [Server.holds_setCall_rest hr]
    refine departs_same (departs_nil rfl rfl rfl rfl) rfl fun r => ?_
    simp only [Server.next]
    split <;> exact hsame _ r
  | append who sln c =>
    obtain ⟨hcall, -⟩ := hen
    have hfrom : s.holds (.hand who) = [sln] := by simp [Server.holds, hcall]
    refine departs_move (departs_nil rfl rfl rfl rfl) rfl (.hand who) (.queue c) hfrom ?_ ?_
      fun r hp hq => ?_
    · simp [Server.next]
    · simp only [Server.next]
      rw [Server.holds_setCall_rest (by simp), Server.holds_setClient_queue]
      rfl
    · simp only [Server.next]
      rw [Server.holds_setCall_rest hp, Client.push, Server.holds_setQueue_rest hq]
  | query e ok =>
    have hold : s.holds .todo = [] := holds_todo_other (by simp [hen.1])
    obtain ⟨stmt, hstmt, heq⟩ := Server.next_query hen
    have hrest : ∀ r, r ≠ .todo → (s.next (.query e ok)).holds r = s.holds r := by
      intro r hr
      rw [heq]
      cases r with
      | todo => exact absurd rfl hr
      | _ => simp [Server.holds, Server.query]
    have htodo : (s.next (.query e ok)).holds .todo = s.issues (.query e ok) := by
      rw [heq]
      simp only [Server.issues, hstmt]
      generalize e.next (ok && s.conn = .open) (s.query stmt ok).db = e'
      cases e' with
      | ret code rows =>
        simp only [Server.afterQuery, Server.holds]
        split_ifs <;> rfl
      | _ => rfl
    refine departs_none (departs_nil rfl rfl rfl rfl) (fun p x hx => ?_)
      fun x hx => ⟨.todo, by rwa [htodo]⟩
    by_cases hp : p = .todo
    · subst hp
      simp [hold] at hx
    · exact ⟨p, by rwa [hrest p hp]⟩
  | dispatch sln rest =>
    obtain ⟨hpoll, hcall⟩ := hen
    have hfrom : s.holds .todo = sln :: rest := by simp [Server.holds, hpoll]
    refine departs_move (departs_nil rfl rfl rfl rfl) rfl .todo (.hand .poll) hfrom rfl ?_
      fun r hp hq => ?_
    · simp only [Server.next, Server.holds_setCall_hand]
      simp [Server.holds, hcall]
    · simp only [Server.next, Server.holds_setCall_rest hq]
      cases r with
      | todo => exact absurd rfl hp
      | _ => rfl
  | initDb ok =>
    have hpoll : s.poll = .init := hen
    exact departs_same (departs_nil rfl rfl rfl rfl) rfl
      (holds_poll (holds_todo_other (by simp [hpoll])) (by cases ok <;> rfl) rfl rfl)
  | check =>
    have hpoll : s.poll = .top := hen
    refine departs_same (departs_nil rfl rfl rfl rfl) rfl
      (holds_poll (holds_todo_other (by simp [hpoll])) ?_ rfl rfl)
    simp only [Server.next, Server.holds]
    split_ifs <;> rfl
  | lockDb =>
    exact departs_same (departs_nil rfl rfl rfl rfl) rfl
      (holds_poll (holds_todo_other (by simp [hen.1])) rfl rfl rfl)
  | again =>
    refine departs_same (departs_nil rfl rfl rfl rfl) rfl (holds_poll ?_ rfl rfl rfl)
    simp [Server.holds, hen.1]
  | closeDb =>
    have hpoll : s.poll = .close := hen
    exact departs_same (departs_nil rfl rfl rfl rfl) rfl
      (holds_poll (holds_todo_other (by simp [hpoll])) rfl rfl rfl)
  | submit row =>
    refine departs_same (departs_nil rfl rfl rfl rfl) rfl fun r => ?_
    simp only [Server.next]
    split <;> rfl
  | find t me errno =>
    refine departs_same (departs_nil rfl rfl rfl rfl) rfl fun r => ?_
    simp only [Server.next]
    split <;> rfl
  | _ => exact departs_same (departs_nil rfl rfl rfl rfl) rfl fun r => by cases r <;> rfl

/-! What a run has issued, and what has become of it. -/

/-- The objects that the extractions of a run have handed to the dispatch loop. -/
def issuedBy (db : Table) (as : List Action) : List Solution :=
  outputs Server.step Server.issues (.init db) as

def goneBy (db : Table) (as : List Action) (e : Exit) : List Solution :=
  outputs Server.step (fun s a => s.departs a e) (.init db) as

/-- What the accounts of a run rest on. -/
structure Tallied (s : Server) : Prop where
  guarded : Guarded s
  listed : Listed s
  dispatched : Dispatched s
  unborn : Unborn s

theorem step_tallied {s s' : Server} {a : Action} (h : Tallied s) (hs : s.step a = some s') :
    Tallied s' where
  guarded := step_guarded h.guarded hs
  listed := h.listed.step h.guarded hs
  dispatched := step_dispatched h.guarded h.dispatched hs
  unborn := step_unborn h.guarded h.listed h.unborn hs

theorem reaches_tallied {db : Table} {as : List Action} {s : Server} (h : Reaches db as s) :
    Tallied s :=
  h.invariant (I := Tallied) ⟨guarded_init db, listed_init db, dispatched_init db, unborn_init db⟩
    fun _ _ _ => step_tallied

/-- The objects of a run have addresses of their own, all given out already. -/
theorem issuedBy_addrs {db : Table} {as : List Action} {s : Server} (h : Reaches db as s) :
    ((issuedBy db as).map Solution.addr).Nodup ∧ ∀ sln ∈ issuedBy db as, sln.addr < s.nextAddr := by
  induction h with
  | nil => exact ⟨List.nodup_nil, by simp [issuedBy, outputs]⟩
  | @snoc as a s s' hr hs ih =>
    obtain ⟨hnodup, hbelow⟩ := ih
    have hnew : ∀ sln ∈ s.issues a, s.nextAddr ≤ sln.addr ∧ sln.addr < s'.nextAddr := by
      intro sln hsln
      have haddr := List.mem_map_of_mem (f := Solution.addr) hsln
      have hnext := nextAddr_step hs
      rw [issues_addrs, List.mem_range'_1] at haddr
      omega
    have hstep := (Nat.le_add_right _ _).trans (nextAddr_step hs)
    rw [issuedBy, outputs_snoc hr]
    refine ⟨?_, fun sln hsln => ?_⟩
    · rw [List.map_append]
      refine List.Nodup.append hnodup ?_ fun x hx hx' => ?_
      · rw [issues_addrs]
        exact List.nodup_range'
      · obtain ⟨sln, hsln, rfl⟩ := List.mem_map.1 hx
        obtain ⟨sln', hsln', heq⟩ := List.mem_map.1 hx'
        have := hbelow sln hsln
        have := (hnew sln' hsln').1
        omega
    · rcases List.mem_append.1 hsln with hold | hsln
      · exact lt_of_lt_of_le (hbelow sln hold) hstep
      · exact (hnew sln hsln).2

theorem reaches_accounts {db : Table} {as : List Action} {s : Server} (h : Reaches db as s)
    (hfree : Along Server.step (.init db) as FreesUnlocked) :
    Accounts Solution.addr s.holds (goneBy db as) (issuedBy db as) := by
  induction h with
  | nil =>
    have hempty : (Server.init db).holds = fun _ => [] := by
      funext r
      cases r <;> rfl
    rw [hempty]
    exact .start
  | @snoc as a s s' hr hs ih =>
    obtain ⟨hbefore, hlast⟩ := (along_snoc hr).1 hfree
    have ht := reaches_tallied hr
    have hnodup := (issuedBy_addrs (hr.snoc hs)).1
    have hgone : goneBy db (as ++ [a]) = fun e => goneBy db as e ++ s.departs a e := by
      funext e
      exact outputs_snoc hr a
    rw [issuedBy, outputs_snoc hr] at hnodup ⊢
    rw [hgone]
    exact (ih hbefore).step (step_shift ht.guarded hs)
      (step_departs ht.guarded ht.dispatched ht.unborn hlast hs) hnodup

/-- The polling thread chooses the only client, which leaves before the solution is appended. -/
def leavingRun : List Action :=
  joining 0 0 ++ starting ++ extracting [sampleRow 1] ++
    [.dispatch (decodeRow 0 (sampleRow 1)) [], .lookup .poll (decodeRow 0 (sampleRow 1)),
      .choose .poll (decodeRow 0 (sampleRow 1)) 0 true] ++
    resetting 0 0 ++ unmapping 0 0 0 ++ [.lock 0 0 0, .finish 0 0 0]

end JudgeServer
