import JudgeServer.Server.Locks

/-! No circular waiting among the threads of server.c. There is no global order of the
mutexes: `push_solution` takes the mutex of a client last, `remove_client` takes one
before it calls `push_solution`. But a client whose mutex is held across a call is out
of `clients_map`, and the client chosen there is in it, or is deleted later. -/

namespace JudgeServer

open Locking Transition

/-! The rules of the code, one for each way to go on from a place. -/

inductive CodeRule (d : Shared) : CodePlace → Instr Mutex Shared CodePlace → Prop
  | refuse : CodeRule d .idle (.act d .done)
  | accept {compilers : List UInt16} :
      CodeRule d .idle (.act d (.register (.lockClients compilers)))
  | stop : CodeRule d .idle (.act { d with serverRunning := false } .done)
  -- registration
  | lockClients {compilers : List UInt16} : CodeRule d (.register (.lockClients compilers))
      (.lock .clientsMap (.register (.create compilers)))
  | create {compilers : List UInt16} {order : List ClientRef} :
      CodeRule d (.register (.create compilers)) (.act
        { d with
          clients := Function.update d.clients d.nextClient (clientCreate d.lastClientId)
          clientsMap := rehash order (d.nextClient :: d.clientsMap)
          nextClient := d.nextClient + 1
          lastClientId := d.lastClientId + 1 }
        (.register (.unlockClients d.nextClient compilers)))
  | unlockClients {me : ClientRef} {compilers : List UInt16} :
      CodeRule d (.register (.unlockClients me compilers))
        (.unlock .clientsMap (.register (.lockCompilers me compilers)))
  | lockCompilers {me : ClientRef} {compilers : List UInt16} :
      CodeRule d (.register (.lockCompilers me compilers))
        (.lock .compilersMap (.register (.announce me compilers)))
  | announce {me : ClientRef} {id : UInt16} {ids : List UInt16} {m : CompilersMap} :
      CodeRule d (.register (.announce me (id :: ids)))
        (.act { d with compilersMap := m } (.register (.announce me ids)))
  | announced {me : ClientRef} : CodeRule d (.register (.announce me []))
      (.unlock .compilersMap (.loop me ⟨.top, .other 0⟩ .outside))
  -- the loop
  | enter {me : ClientRef} {l : Locals} {m : Mutex} (hm : l.pc.mutex me = some m) :
      CodeRule d (.loop me l .outside) (.lock m (.loop me l (.body m)))
  | find {me c : ClientRef} {l : Locals} (hfind : d.findClient (d.clients me).id = some c) :
      CodeRule d (.loop me l .outside) (.act d (.remove me c .lockCompilers))
  | left {me : ClientRef} {l : Locals} : CodeRule d (.loop me l .outside) (.act d .done)
  | event {me : ClientRef} {l l' : Locals} {c : Client} :
      CodeRule d (.loop me l .outside) (.act (d.setClient me c) (.loop me l' .outside))
  | body {me : ClientRef} {l l' : Locals} {m : Mutex} {c : Client} {ev : LoopEv}
      (hev : ev.locked = true) (hstep : loopStep (d.clients me, l) ev = some (c, l')) :
      CodeRule d (.loop me l (.body m)) (.act (d.setClient me c) (.loop me l' (.leave m)))
  | leave {me : ClientRef} {l : Locals} {m : Mutex} :
      CodeRule d (.loop me l (.leave m)) (.unlock m (.loop me l .outside))
  -- remove_client
  | lockVisit {me c : ClientRef} {ks : List CompilerRef} :
      CodeRule d (.remove me c .lockCompilers) (.lock .compilersMap (.remove me c (.visit ks)))
  | visit {me c : ClientRef} {k : CompilerRef} {ks : List CompilerRef} :
      CodeRule d (.remove me c (.visit (k :: ks))) (.lock (.list k) (.remove me c (.unlist k ks)))
  | unlist {me c : ClientRef} {k : CompilerRef} {ks : List CompilerRef} :
      CodeRule d (.remove me c (.unlist k ks))
        (.act (d.unlist k (d.clients me).id) (.remove me c (.unlockList k ks)))
  | unlisted {me c : ClientRef} {k : CompilerRef} {ks : List CompilerRef} :
      CodeRule d (.remove me c (.unlockList k ks)) (.unlock (.list k) (.remove me c (.visit ks)))
  | visited {me c : ClientRef} : CodeRule d (.remove me c (.visit []))
      (.unlock .compilersMap (.remove me c .lockClients))
  | lockUnmap {me c : ClientRef} : CodeRule d (.remove me c .lockClients)
      (.lock .clientsMap (.remove me c .unmap))
  | unmap {me c : ClientRef} : CodeRule d (.remove me c .unmap) (.act
      { d with
        clientsMap := d.clientsMap.filter (· ≠ c)
        lastClientId := d.lastClientId - 1
        removed := d.removed ++ [c] }
      (.remove me c .unlockClients))
  | unmapped {me c : ClientRef} : CodeRule d (.remove me c .unlockClients)
      (.unlock .clientsMap (.remove me c .lockClient))
  | lockClient {me c : ClientRef} : CodeRule d (.remove me c .lockClient)
      (.lock (.client c) (.remove me c .slot))
  | slot {me c : ClientRef} {sln : Solution} :
      CodeRule d (.remove me c .slot) (.act d (.push (.slot me c) sln .lookup))
  | noSlot {me c : ClientRef} : CodeRule d (.remove me c .slot) (.act d (.remove me c .drain))
  | unslot {me c : ClientRef} {client : Client} : CodeRule d (.remove me c .unslot)
      (.act (d.setClient c client) (.remove me c .drain))
  | pop {me c : ClientRef} {client : Client} {sln : Solution} : CodeRule d (.remove me c .drain)
      (.act (d.setClient c client) (.push (.drain me c) sln .lookup))
  | drained {me c : ClientRef} : CodeRule d (.remove me c .drain)
      (.unlock (.client c) (.remove me c .free))
  | freed {me c : ClientRef} {client : Client} :
      CodeRule d (.remove me c .free) (.act (d.setClient c client) .done)
  -- poll_database
  | initDb : CodeRule d (.poll .initDb) (.act d (.poll .top))
  | noDb : CodeRule d (.poll .initDb) (.act d .done)
  | sleep : CodeRule d (.poll .top) (.act d (.poll .lockDb))
  | stopped : CodeRule d (.poll .top) (.act d (.poll .closeDb))
  | lockDb : CodeRule d (.poll .lockDb) (.lock .db (.poll .extract))
  | extract {result : Option (List Solution)} :
      CodeRule d (.poll .extract) (.act d (.poll (.unlockDb result)))
  | extracted {slns : List Solution} :
      CodeRule d (.poll (.unlockDb (some slns))) (.unlock .db (.poll (.dispatch slns)))
  | failed : CodeRule d (.poll (.unlockDb none)) (.unlock .db (.poll .top))
  | dispatch {sln : Solution} {rest : List Solution} :
      CodeRule d (.poll (.dispatch (sln :: rest))) (.act d (.push (.poll rest) sln .lookup))
  | dispatched : CodeRule d (.poll (.dispatch [])) (.act d (.poll .top))
  | closeDb : CodeRule d (.poll .closeDb) (.act d .done)
  -- push_solution
  | lookup {caller : Caller} {sln : Solution} {k : CompilerRef} :
      CodeRule d (.push caller sln .lookup) (.act d (.push caller sln (.lockMap k)))
  | lookupNone {caller : Caller} {sln : Solution} :
      CodeRule d (.push caller sln .lookup) (.act d (.push caller sln .noCompiler))
  | noCompiler {caller : Caller} {sln : Solution} :
      CodeRule d (.push caller sln .noCompiler) (.act d caller.back)
  | lockMap {caller : Caller} {sln : Solution} {k : CompilerRef} :
      CodeRule d (.push caller sln (.lockMap k)) (.lock .clientsMap (.push caller sln (.lockList k)))
  | lockList {caller : Caller} {sln : Solution} {k : CompilerRef} :
      CodeRule d (.push caller sln (.lockList k))
        (.lock (.list k) (.push caller sln (.scan k 0 INT32_MAX none)))
  | look {caller : Caller} {sln : Solution} {k : CompilerRef} {i : ℕ} {least : UInt32}
      {best : Option ClientRef} {cur : ClientRef} (hcur : cur ∈ d.clientsMap) :
      CodeRule d (.push caller sln (.scan k i least best))
        (.act d (.push caller sln (.lockCur k i least best cur)))
  | skip {caller : Caller} {sln : Solution} {k : CompilerRef} {i : ℕ} {least : UInt32}
      {best : Option ClientRef} : CodeRule d (.push caller sln (.scan k i least best))
        (.act d (.push caller sln (.scan k (i + 1) least best)))
  | scanned {caller : Caller} {sln : Solution} {k : CompilerRef} {i : ℕ} {least : UInt32}
      {best : Option ClientRef} : CodeRule d (.push caller sln (.scan k i least best))
        (.act d (.push caller sln (.unlockList k best)))
  | scannedNone {caller : Caller} {sln : Solution} {k : CompilerRef} {i : ℕ} {least : UInt32} :
      CodeRule d (.push caller sln (.scan k i least none))
        (.act d (.push caller sln (.noClients k)))
  | lockCur {caller : Caller} {sln : Solution} {k : CompilerRef} {i : ℕ} {least : UInt32}
      {best : Option ClientRef} {cur : ClientRef} :
      CodeRule d (.push caller sln (.lockCur k i least best cur))
        (.lock (.client cur) (.push caller sln (.load k i least best cur)))
  | load {caller : Caller} {sln : Solution} {k : CompilerRef} {i : ℕ} {least : UInt32}
      {best : Option ClientRef} {cur : ClientRef} {loading : UInt32} :
      CodeRule d (.push caller sln (.load k i least best cur))
        (.act d (.push caller sln (.unlockCur k i least best cur loading)))
  | free {caller : Caller} {sln : Solution} {k : CompilerRef} {i : ℕ} {least : UInt32}
      {best : Option ClientRef} {cur : ClientRef} {loading : UInt32} :
      CodeRule d (.push caller sln (.unlockCur k i least best cur loading))
        (.unlock (.client cur) (.push caller sln (.unlockList k (some cur))))
  | better {caller : Caller} {sln : Solution} {k : CompilerRef} {i : ℕ} {least : UInt32}
      {best : Option ClientRef} {cur : ClientRef} {loading : UInt32} :
      CodeRule d (.push caller sln (.unlockCur k i least best cur loading))
        (.unlock (.client cur) (.push caller sln (.scan k (i + 1) loading (some cur))))
  | worse {caller : Caller} {sln : Solution} {k : CompilerRef} {i : ℕ} {least : UInt32}
      {best : Option ClientRef} {cur : ClientRef} {loading : UInt32} :
      CodeRule d (.push caller sln (.unlockCur k i least best cur loading))
        (.unlock (.client cur) (.push caller sln (.scan k (i + 1) least best)))
  | noClients {caller : Caller} {sln : Solution} {k : CompilerRef} :
      CodeRule d (.push caller sln (.noClients k)) (.act d (.push caller sln (.unlockList k none)))
  | unlockList {caller : Caller} {sln : Solution} {k : CompilerRef} {best : Option ClientRef} :
      CodeRule d (.push caller sln (.unlockList k best))
        (.unlock (.list k) (.push caller sln (.unlockMap best)))
  | chosen {caller : Caller} {sln : Solution} {c : ClientRef} :
      CodeRule d (.push caller sln (.unlockMap (some c)))
        (.unlock .clientsMap (.push caller sln (.lockTarget c)))
  | noneChosen {caller : Caller} {sln : Solution} :
      CodeRule d (.push caller sln (.unlockMap none)) (.unlock .clientsMap caller.back)
  | lockTarget {caller : Caller} {sln : Solution} {c : ClientRef} :
      CodeRule d (.push caller sln (.lockTarget c)) (.lock (.client c) (.push caller sln (.append c)))
  | append {caller : Caller} {sln : Solution} {c : ClientRef} {client : Client} :
      CodeRule d (.push caller sln (.append c))
        (.act (d.setClient c client) (.push caller sln (.unlockTarget c)))
  | unlockTarget {caller : Caller} {sln : Solution} {c : ClientRef} :
      CodeRule d (.push caller sln (.unlockTarget c)) (.unlock (.client c) caller.back)

section Rules

variable {d : Shared} {x : Decision} {i : Instr Mutex Shared CodePlace}

theorem registerNext_rule {p : RegisterPlace} (h : registerNext d p x = some i) :
    CodeRule d (.register p) i := by
  unfold registerNext at h
  split at h <;> cases h <;> constructor

theorem loopNext_rule {me : ClientRef} {l : Locals} {p : LoopPlace}
    (h : loopNext d me l p x = some i) : CodeRule d (.loop me l p) i := by
  unfold loopNext at h
  split at h
  · split at h
    · rename_i hm
      cases h
      exact .enter hm
    · split_ifs at h with hremoving hended
      · split at h
        · rename_i hfind
          cases h
          exact .find hfind
        · cases h
          exact .left
      · cases h
        exact .left
  · split_ifs at h
    obtain ⟨r, -, rfl⟩ := Option.map_eq_some_iff.1 h
    exact .event
  · split_ifs at h with hev
    obtain ⟨r, hstep, rfl⟩ := Option.map_eq_some_iff.1 h
    exact .body hev hstep
  · cases h
    exact .leave
  · cases h

theorem removeNext_rule {me c : ClientRef} {p : RemovePlace} (h : removeNext d me c p x = some i) :
    CodeRule d (.remove me c p) i := by
  unfold removeNext at h
  split at h
  case h_10 | h_12 => split at h <;> cases h <;> constructor
  all_goals
    cases h
    try constructor

theorem pollNext_rule {p : PollPlace} (h : pollNext d p x = some i) : CodeRule d (.poll p) i := by
  unfold pollNext at h
  split at h
  case h_1 | h_2 =>
    obtain rfl := Option.some.inj h
    split_ifs <;> constructor
  all_goals
    cases h
    try constructor

theorem findClient_mem {id : UInt32} {c : ClientRef} (h : d.findClient id = some c) :
    c ∈ d.clientsMap := List.mem_of_find?_eq_some h

theorem pushNext_rule {caller : Caller} {sln : Solution} {p : PushPlace}
    (h : pushNext d caller sln p x = some i) : CodeRule d (.push caller sln p) i := by
  unfold pushNext at h
  split at h
  case h_1 => split at h <;> cases h <;> constructor
  case h_5 =>
    split at h
    · split at h
      · rename_i hfind
        cases h
        exact .look (findClient_mem hfind)
      · cases h
        exact .skip
    · split at h
      · cases h
        exact .scanned
      · cases h
        exact .scannedNone
  case h_8 =>
    obtain rfl := Option.some.inj h
    split_ifs <;> constructor
  all_goals
    cases h
    try constructor

/-- Every instruction of the code is one of the rules. -/
theorem serverCode_rule {p : CodePlace} (h : serverCode d p x = some i) : CodeRule d p i := by
  unfold serverCode at h
  split at h
  · cases h
    exact .refuse
  · cases h
    exact .accept
  · cases h
    exact .stop
  · exact registerNext_rule h
  · exact loopNext_rule h
  · exact removeNext_rule h
  · exact pollNext_rule h
  · exact pushNext_rule h
  · cases h

end Rules

/-! The mutexes held at each place, the last one locked first. -/

def RegisterPlace.holds : RegisterPlace → List Mutex
  | .create _ | .unlockClients _ _ => [.clientsMap]
  | .announce _ _ => [.compilersMap]
  | _ => []

def LoopPlace.holds : LoopPlace → List Mutex
  | .outside => []
  | .body m | .leave m => [m]

def RemovePlace.holds (c : ClientRef) : RemovePlace → List Mutex
  | .visit _ => [.compilersMap]
  | .unlist k _ | .unlockList k _ => [.list k, .compilersMap]
  | .unmap | .unlockClients => [.clientsMap]
  | .slot | .unslot | .drain => [.client c]
  | _ => []

def PollPlace.holds : PollPlace → List Mutex
  | .extract | .unlockDb _ => [.db]
  | _ => []

def PushPlace.holds : PushPlace → List Mutex
  | .lockList _ | .unlockMap _ => [.clientsMap]
  | .scan k _ _ _ | .lockCur k _ _ _ _ | .noClients k | .unlockList k _ =>
    [.list k, .clientsMap]
  | .load k _ _ _ cur | .unlockCur k _ _ _ cur _ => [.client cur, .list k, .clientsMap]
  | .append c | .unlockTarget c => [.client c]
  | _ => []

/-- What the caller of `push_solution` holds across the call. -/
def Caller.holds : Caller → List Mutex
  | .poll _ => []
  | .slot _ c | .drain _ c => [.client c]

def CodePlace.holds : CodePlace → List Mutex
  | .idle | .done => []
  | .register p => p.holds
  | .loop _ _ p => p.holds
  | .remove _ c p => p.holds c
  | .poll p => p.holds
  | .push caller _ p => p.holds ++ caller.holds

@[simp] theorem Caller.back_holds (caller : Caller) : caller.back.holds = caller.holds := by
  cases caller <;> rfl

/-! What a thread relies on at each place. -/

/-- The client that the thread has found and is still to delete from `clients_map`. -/
def CodePlace.finds : CodePlace → Option ClientRef
  | .remove _ c .lockCompilers | .remove _ c (.visit _) | .remove _ c (.unlist _ _)
  | .remove _ c (.unlockList _ _) | .remove _ c .lockClients | .remove _ c .unmap => some c
  | _ => none

def Caller.unmapped : Caller → Option ClientRef
  | .poll _ => none
  | .slot _ c | .drain _ c => some c

/-- The client that the thread has deleted from `clients_map`. -/
def CodePlace.unmapped : CodePlace → Option ClientRef
  | .remove _ c .unlockClients | .remove _ c .lockClient | .remove _ c .slot
  | .remove _ c .unslot | .remove _ c .drain | .remove _ c .free => some c
  | .push caller _ _ => caller.unmapped
  | _ => none

/-- The clients `push_solution` refers to while it is inside `clients_map_mutex`. -/
def PushPlace.scanned : PushPlace → List ClientRef
  | .scan _ _ _ best | .unlockList _ best | .unlockMap best => best.toList
  | .lockCur _ _ _ best cur | .load _ _ _ best cur | .unlockCur _ _ _ best cur _ =>
    cur :: best.toList
  | _ => []

def CodePlace.scanned : CodePlace → List ClientRef
  | .push _ _ p => p.scanned
  | _ => []

/-- The client `push_solution` has chosen, once it is outside of `clients_map_mutex`. -/
def CodePlace.target : CodePlace → Option ClientRef
  | .push _ _ (.lockTarget c) | .push _ _ (.append c) | .push _ _ (.unlockTarget c) => some c
  | _ => none

/-- The loop is at a section with this mutex, or comes out of one. -/
def CodePlace.sectioned : CodePlace → Prop
  | .loop me l (.body m) => l.pc.mutex me = some m
  | .loop _ l (.leave _) =>
    l.pc = .top ∨ l.pc = .clearing ∨ l.pc = .recvLen ∨ ∃ sln, l.pc = .sending sln
  | _ => True

/-- `later`: the client chosen by a call of `push_solution` in `remove_client` will be
deleted after the client that is removed there. -/
structure Sound (d : Shared) (p : CodePlace) : Prop where
  known : ∀ c ∈ d.clientsMap, c < d.nextClient
  gone : ∀ c ∈ d.removed, c < d.nextClient ∧ c ∉ d.clientsMap
  finds : ∀ c, p.finds = some c → c < d.nextClient
  unmapped : ∀ c, p.unmapped = some c → c ∈ d.removed
  scanned : ∀ c ∈ p.scanned, c ∈ d.clientsMap
  later : ∀ c e, p.unmapped = some c → p.target = some e → d.removed.idxOf c < d.removed.idxOf e
  sectioned : p.sectioned

theorem scanned_holds {p : CodePlace} (h : p.scanned ≠ []) : .clientsMap ∈ p.holds := by
  cases p with
  | push caller sln p => cases p <;> simp_all [CodePlace.scanned, PushPlace.scanned, CodePlace.holds,
      PushPlace.holds]
  | _ => exact absurd rfl h

/-- What an action does to the registry. -/
inductive RegistryChange (d : Shared) (p : CodePlace) (d' : Shared) : Prop
  | same (hmap : d'.clientsMap = d.clientsMap) (hremoved : d'.removed = d.removed)
      (hnext : d'.nextClient = d.nextClient)
  | create (hmap : ∀ c, c ∈ d'.clientsMap ↔ c = d.nextClient ∨ c ∈ d.clientsMap)
      (hremoved : d'.removed = d.removed) (hnext : d'.nextClient = d.nextClient + 1)
  | unmap {me c : ClientRef} (hp : p = .remove me c .unmap)
      (hmap : d'.clientsMap = d.clientsMap.filter (· ≠ c)) (hremoved : d'.removed = d.removed ++ [c])
      (hnext : d'.nextClient = d.nextClient)

theorem CodeRule.registry {d d' : Shared} {p q : CodePlace} (h : CodeRule d p (.act d' q)) :
    RegistryChange d p d' := by
  cases h with
  | create => exact .create (fun c => by simp) rfl rfl
  | unmap => exact .unmap rfl rfl rfl rfl
  | _ => exact .same rfl rfl rfl

/-- Where the body of a locked section of the loop leads. -/
theorem loopStep_locked {s s' : Client × Locals} {ev : LoopEv} (hev : ev.locked = true)
    (h : loopStep s ev = some s') :
    s.2.pc = .process ∧ (s'.2.pc = .recvLen ∨ ∃ sln, s'.2.pc = .sending sln) ∨
      (∃ id code test, s.2.pc = .posting id code test) ∧ s'.2.pc = .clearing ∨
      s.2.pc = .clearing ∧ s'.2.pc = .top := by
  have hrule := loopStep_rule h
  obtain ⟨c, l⟩ := s
  cases hrule with
  | idle => exact Or.inl ⟨rfl, Or.inl rfl⟩
  | @pop _ sln => exact Or.inl ⟨rfl, Or.inr ⟨sln, rfl⟩⟩
  | @post _ id code test => exact Or.inr (Or.inl ⟨⟨id, code, test, rfl⟩, rfl⟩)
  | clear => exact Or.inr (Or.inr ⟨rfl, rfl⟩)
  | _ => cases hev

/-- Later deletions do not change the order of the earlier ones. -/
theorem idxOf_lt_append {l : List ClientRef} {c e : ClientRef} (f : ClientRef) (hc : c ∈ l)
    (h : l.idxOf c < l.idxOf e) : (l ++ [f]).idxOf c < (l ++ [f]).idxOf e := by
  rw [List.idxOf_append_of_mem hc]
  by_cases he : e ∈ l
  · rwa [List.idxOf_append_of_mem he]
  · rw [List.idxOf_append_of_notMem he]
    exact (List.idxOf_lt_length_of_mem hc).trans_le (Nat.le_add_right ..)

namespace Sound

variable {d d' : Shared} {p q : CodePlace}

/-- An action keeps what a thread relies on, unless it deletes a client while this
thread looks through the map. -/
theorem change (h : Sound d p) (hr : RegistryChange d q d')
    (hfinds : ∀ c, q.finds = some c → c < d.nextClient)
    (hscan : p.scanned = [] ∨ ∀ me c, q ≠ .remove me c .unmap) : Sound d' p := by
  cases hr with
  | same hmap hremoved hnext =>
    obtain ⟨h1, h2, h3, h4, h5, h6, h7⟩ := h
    refine ⟨?_, ?_, ?_, ?_, ?_, ?_, h7⟩ <;> simp only [hmap, hremoved, hnext] <;> assumption
  | create hmap hremoved hnext =>
    refine ⟨fun c hc => ?_, fun c hc => ?_, fun c hc => ?_, ?_, fun c hc => ?_, ?_, h.sectioned⟩
    · rw [hnext]
      rcases (hmap c).1 hc with rfl | hc
      · exact Nat.lt_succ_self _
      · exact Nat.lt_succ_of_lt (h.known c hc)
    · rw [hremoved] at hc
      obtain ⟨hlt, hnot⟩ := h.gone c hc
      rw [hnext, hmap]
      refine ⟨Nat.lt_succ_of_lt hlt, ?_⟩
      rintro (rfl | hmem)
      · exact Nat.lt_irrefl _ hlt
      · exact hnot hmem
    · rw [hnext]
      exact Nat.lt_succ_of_lt (h.finds c hc)
    · rw [hremoved]
      exact h.unmapped
    · exact (hmap c).2 (Or.inr (h.scanned c hc))
    · rw [hremoved]
      exact h.later
  | @unmap me f hq hmap hremoved hnext =>
    subst hq
    have hnone : p.scanned = [] := hscan.resolve_right fun hne => hne me f rfl
    refine ⟨fun c hc => ?_, fun c hc => ?_, ?_, fun c hc => ?_, ?_, fun c e hc he => ?_, h.sectioned⟩
    · rw [hmap] at hc
      rw [hnext]
      exact h.known c (List.mem_of_mem_filter hc)
    · rw [hremoved, List.mem_append, List.mem_singleton] at hc
      rw [hnext, hmap]
      rcases hc with hc | rfl
      · exact ⟨(h.gone c hc).1, fun hmem => (h.gone c hc).2 (List.mem_of_mem_filter hmem)⟩
      · exact ⟨hfinds c rfl, by simp⟩
    · rw [hnext]
      exact h.finds
    · rw [hremoved]
      exact List.mem_append_left _ (h.unmapped c hc)
    · simp [hnone]
    · rw [hremoved]
      exact idxOf_lt_append f (h.unmapped c hc) (h.later c e hc he)

/-- The thread goes on with what it already relies on. -/
theorem goOn (h : Sound d p) (hfinds : q.finds = none ∨ q.finds = p.finds)
    (hunmapped : q.unmapped = none ∨ q.unmapped = p.unmapped) (hscanned : q.scanned ⊆ p.scanned)
    (htarget : q.target = none ∨ q.target = p.target) (hsectioned : q.sectioned) : Sound d q := by
  have hun : ∀ c, q.unmapped = some c → p.unmapped = some c := by
    intro c hc
    rcases hunmapped with hnone | heq
    · rw [hnone] at hc
      cases hc
    · rwa [← heq]
  refine ⟨h.known, h.gone, fun c hc => ?_, fun c hc => h.unmapped c (hun c hc),
    fun c hc => h.scanned c (hscanned hc), fun c e hc he => ?_, hsectioned⟩
  · rcases hfinds with hnone | heq
    · rw [hnone] at hc
      cases hc
    · exact h.finds c (heq ▸ hc)
  · rcases htarget with hnone | heq
    · rw [hnone] at he
      cases he
    · exact h.later c e (hun c hc) (heq ▸ he)

theorem back {caller : Caller} {sln : Solution} {p : PushPlace} (h : Sound d (.push caller sln p)) :
    Sound d caller.back := by
  cases caller with
  | poll rest =>
    exact h.goOn (Or.inl rfl) (Or.inl rfl) (List.nil_subset _) (Or.inl rfl) trivial
  | slot me c | drain me c =>
    exact h.goOn (Or.inl rfl) (Or.inr rfl) (List.nil_subset _) (Or.inl rfl) trivial

theorem lock {m : Mutex} (h : Sound d p) (hr : CodeRule d p (.lock m q)) : Sound d q := by
  cases hr with
  | enter hm => exact h.goOn (Or.inl rfl) (Or.inl rfl) (List.nil_subset _) (Or.inl rfl) hm
  | _ =>
    refine h.goOn ?_ ?_ ?_ ?_ trivial <;>
      simp [CodePlace.finds, CodePlace.unmapped, CodePlace.scanned, PushPlace.scanned,
        CodePlace.target]

theorem unlock {m : Mutex} (h : Sound d p) (hr : CodeRule d p (.unlock m q)) : Sound d q := by
  cases hr with
  | @chosen caller sln c =>
    -- the client is in the map, so it will be deleted after the one this thread drains
    have hc : c ∉ d.removed := by
      intro hmem
      exact (h.gone c hmem).2 (h.scanned c (List.mem_singleton_self _))
    refine ⟨h.known, h.gone, by simp [CodePlace.finds], h.unmapped,
      by simp [CodePlace.scanned, PushPlace.scanned], fun e f he hf => ?_, trivial⟩
    obtain rfl := Option.some.inj hf
    rw [List.idxOf_eq_length hc]
    exact List.idxOf_lt_length_of_mem (h.unmapped e he)
  | noneChosen | unlockTarget => exact h.back
  | _ =>
    refine h.goOn ?_ ?_ ?_ ?_ trivial <;>
      simp [CodePlace.finds, CodePlace.unmapped, CodePlace.scanned, PushPlace.scanned,
        CodePlace.target]

theorem act (h : Sound d p) (hr : CodeRule d p (.act d' q)) : Sound d' q := by
  have hown : Sound d' p := by
    refine h.change hr.registry h.finds ?_
    cases hr <;> simp [CodePlace.scanned]
  cases hr with
  | find hfind =>
    refine ⟨h.known, h.gone, fun c hc => ?_, by simp [CodePlace.unmapped],
      by simp [CodePlace.scanned], by simp [CodePlace.target], trivial⟩
    obtain rfl := Option.some.inj hc
    exact h.known _ (findClient_mem hfind)
  | unmap =>
    refine ⟨hown.known, hown.gone, by simp [CodePlace.finds], fun c hc => ?_,
      by simp [CodePlace.scanned], by simp [CodePlace.target], trivial⟩
    obtain rfl := Option.some.inj hc
    exact List.mem_append_right _ (List.mem_singleton_self _)
  | look hcur =>
    refine ⟨h.known, h.gone, h.finds, h.unmapped, fun c hc => ?_, by simp [CodePlace.target], trivial⟩
    rcases List.mem_cons.1 hc with rfl | hc
    · exact hcur
    · exact h.scanned c hc
  | noCompiler => exact h.back
  | body hev hstep =>
    refine hown.goOn (Or.inl rfl) (Or.inl rfl) (List.nil_subset _) (Or.inl rfl) ?_
    rcases loopStep_locked hev hstep with ⟨-, hpc | hpc⟩ | ⟨-, hpc⟩ | ⟨-, hpc⟩
    · exact Or.inr (Or.inr (Or.inl hpc))
    · exact Or.inr (Or.inr (Or.inr hpc))
    · exact Or.inr (Or.inl hpc)
    · exact Or.inl hpc
  | _ =>
    refine hown.goOn ?_ ?_ ?_ ?_ trivial <;>
      simp [CodePlace.finds, CodePlace.unmapped, Caller.unmapped, CodePlace.scanned,
        PushPlace.scanned, CodePlace.target]

/-- An action of another thread, which holds other mutexes. -/
theorem stable {r : CodePlace} (h : Sound d r) (hp : Sound d p) (hdis : r.holds.Disjoint p.holds)
    (hr : CodeRule d p (.act d' q)) : Sound d' r := by
  refine h.change hr.registry hp.finds ?_
  by_cases hscan : r.scanned = []
  · exact Or.inl hscan
  · refine Or.inr ?_
    rintro me c rfl
    exact hdis (scanned_holds hscan) (List.mem_singleton_self _)

end Sound

/-- Locks and unlocks are properly nested. -/
theorem CodeRule.holds {d : Shared} {p : CodePlace} {i : Instr Mutex Shared CodePlace}
    (h : CodeRule d p i) : match i with
      | .lock m q => q.holds = m :: p.holds
      | .unlock m q => p.holds = m :: q.holds
      | .act _ q => q.holds = p.holds := by
  cases h with
  | @noCompiler caller => exact caller.back_holds
  | @noneChosen caller | @unlockTarget caller => exact congrArg (_ :: ·) caller.back_holds.symm
  | _ => rfl

/-- The proof outline of the code. -/
def lockOutline : Outline serverCode where
  holds := CodePlace.holds
  relies := Sound
  lock h hi := ⟨(serverCode_rule hi).holds, h.lock (serverCode_rule hi)⟩
  unlock h hi := ⟨(serverCode_rule hi).holds, h.unlock (serverCode_rule hi)⟩
  act h hi := ⟨(serverCode_rule hi).holds, h.act (serverCode_rule hi)⟩
  stable h hp hdis hi := h.stable hp hdis (serverCode_rule hi)

theorem lockReaches_described {as : List (Who × Decision)} {s : LockState} (h : LockReaches as s) :
    lockOutline.Describes s := by
  refine Outline.Describes.run (Outline.describes_start (fun w => ?_) fun w => ?_) h
  · cases w <;> rfl
  · cases w <;> exact ⟨by simp [Shared.init], by simp [Shared.init], by simp [CodePlace.finds],
      by simp [CodePlace.unmapped], by simp [CodePlace.scanned], by simp [CodePlace.target], trivial⟩

/-! Ranks: whoever waits for a mutex has a higher one than whoever holds it. The clients
chosen by `push_solution` are ranked by the order of their deletion, the last one and
those still in the map lowest. -/

def PushPlace.rank (removed : List ClientRef) : PushPlace → ℕ
  | .lockMap _ => 3
  | .lockList _ => 2
  | .lockCur _ _ _ _ _ => 1
  | .lockTarget c => 4 + (removed.length - removed.idxOf c)
  | _ => 0

/-- Where a thread waits while it holds nothing it comes last. -/
def CodePlace.rank (removed : List ClientRef) : CodePlace → ℕ
  | .push _ _ p => p.rank removed
  | .remove _ _ (.visit _) => 2
  | p => if p.holds = [] then 5 + removed.length else 0

theorem PushPlace.rank_holds (removed : List ClientRef) {p : PushPlace} {m : Mutex}
    (h : m ∈ p.holds) : p.rank removed = 0 ∨ p.rank removed = 1 ∧ (m = .clientsMap ∨ ∃ k, m = .list k) ∨
      p.rank removed = 2 ∧ m = .clientsMap := by
  cases p with
  | lockList => exact Or.inr (Or.inr ⟨rfl, List.mem_singleton.1 h⟩)
  | lockCur k i least best cur =>
    refine Or.inr (Or.inl ⟨rfl, ?_⟩)
    rcases List.mem_pair.1 h with rfl | rfl
    · exact Or.inr ⟨k, rfl⟩
    · exact Or.inl rfl
  | lookup | noCompiler | lockMap | lockTarget => cases h
  | _ => exact Or.inl rfl

theorem Caller.mem_holds {caller : Caller} {m : Mutex} (h : m ∈ caller.holds) :
    ∃ c, m = .client c ∧ caller.unmapped = some c := by
  cases caller with
  | poll rest => cases h
  | slot me c | drain me c => exact ⟨c, List.mem_singleton.1 h, rfl⟩

/-- The ranks of the holders of a mutex. -/
inductive HolderRank (removed : List ClientRef) (q : CodePlace) : Mutex → Prop
  | last {m : Mutex} (hrank : q.rank removed = 0) : HolderRank removed q m
  | list {k : CompilerRef} (hrank : q.rank removed ≤ 1) : HolderRank removed q (.list k)
  | map {m : Mutex} (hrank : q.rank removed ≤ 2) (hm : m = .clientsMap ∨ m = .compilersMap) :
      HolderRank removed q m
  | client {c : ClientRef} (hc : q.unmapped = some c) (hrank : q.rank removed ≤ 3) :
      HolderRank removed q (.client c)
  | target {c e : ClientRef} (hc : q.unmapped = some c) (he : q.target = some e)
      (hrank : q.rank removed = 4 + (removed.length - removed.idxOf e)) :
      HolderRank removed q (.client c)

theorem holderRank {removed : List ClientRef} {q : CodePlace} {m : Mutex} (h : m ∈ q.holds) :
    HolderRank removed q m := by
  cases q with
  | push caller sln p =>
    rcases List.mem_append.1 h with hp | hcaller
    · rcases PushPlace.rank_holds removed hp with h0 | ⟨h1, rfl | ⟨k, rfl⟩⟩ | ⟨h2, rfl⟩
      · exact .last h0
      · exact .map (h1.trans_le one_le_two) (Or.inl rfl)
      · exact .list h1.le
      · exact .map h2.le (Or.inl rfl)
    · obtain ⟨c, rfl, hc⟩ := Caller.mem_holds hcaller
      cases p with
      | lockTarget e => exact .target hc rfl rfl
      | _ => exact .client hc (by simp [CodePlace.rank, PushPlace.rank])
  | remove me c p =>
    cases p with
    | visit ks => exact .map le_rfl (Or.inr (List.mem_singleton.1 h))
    | lockCompilers | lockClients | lockClient | free => cases h
    | _ => exact .last rfl
  | register p | loop me l p | poll p =>
    refine .last (if_neg ?_)
    rintro hnil
    rw [hnil] at h
    cases h
  | idle | done => cases h

theorem HolderRank.lt_top {removed : List ClientRef} {q : CodePlace} {m : Mutex}
    (h : HolderRank removed q m) : q.rank removed < 5 + removed.length := by
  cases h <;> omega

/-- The ranks fall along the waits. -/
theorem rank_lt {d : Shared} {p q r : CodePlace} {m : Mutex} (hp : Sound d p) (hq : Sound d q)
    (hr : CodeRule d p (.lock m r)) (hm : m ∈ q.holds) : q.rank d.removed < p.rank d.removed := by
  have hrank : HolderRank d.removed q m := holderRank hm
  cases hr with
  | lockMap =>
    change _ < 3
    cases hrank with
    | last hrank | map hrank => omega
  | lockList | visit =>
    change _ < 2
    cases hrank with
    | last hrank | list hrank => omega
    | map _ hm => rcases hm with hm | hm <;> cases hm
  | @lockCur _ _ _ _ _ _ cur =>
    change _ < 1
    have hcur : cur ∉ d.removed := fun hmem =>
      (hp.gone cur hmem).2 (hp.scanned cur (List.mem_cons_self ..))
    cases hrank with
    | last hrank => omega
    | map _ hm => rcases hm with hm | hm <;> cases hm
    | client hc => exact absurd (hq.unmapped cur hc) hcur
    | target hc => exact absurd (hq.unmapped cur hc) hcur
  | @lockTarget _ _ c =>
    change _ < 4 + (d.removed.length - d.removed.idxOf c)
    cases hrank with
    | last hrank => omega
    | map _ hm => rcases hm with hm | hm <;> cases hm
    | client hc hrank => omega
    | @target _ e hc he hrank =>
      -- the holder removes c and waits for a client that was deleted later
      have hlater := hq.later c e hc he
      have hlength := List.idxOf_lt_length_of_mem (hq.unmapped c hc)
      omega
  | _ => exact hrank.lt_top

theorem waits_acyclic {s : LockState} (h : lockOutline.Describes s) (w : Who) :
    ¬ Relation.TransGen (s.WaitsFor serverCode) w w :=
  h.acyclic (CodePlace.rank s.data.removed)
    (fun hp hq hi hm => rank_lt hp hq (serverCode_rule hi) hm) w

/-! The operations, and what a thread owns before and after them. -/

inductive Operation
  | registration
  | processSolutions
  | resultHandling
  | removeClient
  | pollRound
  | pushSolution
  deriving DecidableEq, Repr

/-- In `process_solutions`, which leaves its locked section on the way to the receiving
of a packet or to the sending of a solution. -/
def LoopPc.processes : LoopPc → LoopPlace → Bool
  | .process, _ | .sending _, _ | .recvLen, .leave _ => true
  | _, _ => false

/-- In the OP_RESULT branch, with `post_result`. -/
def LoopPc.handles : LoopPc → LoopPlace → Bool
  | .posting _ _ _, _ | .clearing, _ | .top, .leave _ => true
  | _, _ => false

/-- Between the sleep and the end of the dispatch loop of `poll_database`. -/
def PollPlace.polls : PollPlace → Bool
  | .lockDb | .extract | .unlockDb _ | .dispatch _ => true
  | _ => false

/-- The operation that has called `push_solution`. -/
def Caller.operation : Caller → Operation
  | .poll _ => .pollRound
  | .slot _ _ | .drain _ _ => .removeClient

def CodePlace.inside (op : Operation) : CodePlace → Bool
  | .register _ => op = .registration
  | .loop _ l p =>
    match op with
    | .processSolutions => l.pc.processes p
    | .resultHandling => l.pc.handles p
    | _ => false
  | .remove _ _ _ => op = .removeClient
  | .poll p => op = .pollRound && p.polls
  | .push caller _ _ => op = .pushSolution || op = caller.operation
  | .idle | .done => false

/-- Thread `w` goes through the whole of an operation: its first step leads into it, its
last step out of it, and other threads may go on in between. -/
def Performs (w : Who) (op : Operation) (s s' : LockState) : Prop :=
  ∃ a as b s₁ s₂, (s.place w).inside op = false ∧ s.step serverCode a = some s₁ ∧
    Run (State.step serverCode) s₁ as s₂ ∧
    Throughout (State.step serverCode) s₁ as (fun r => (r.place w).inside op = true) ∧
    s₂.step serverCode b = some s' ∧ (s'.place w).inside op = false

section Operations

variable {op : Operation} {d : Shared} {p q : CodePlace} {i : Instr Mutex Shared CodePlace}

/-- What the thread held when it called the operation it is in. -/
def CodePlace.base (op : Operation) : CodePlace → List Mutex
  | .push caller _ _ => if op = .pushSolution then caller.holds else []
  | _ => []

/-- A step into an operation, inside of it, or out of it. -/
structure Bracketed (op : Operation) (p q : CodePlace) : Prop where
  enters : p.inside op = false → q.inside op = true → q.base op = p.holds
  stays : p.inside op = true → q.inside op = true → q.base op = p.base op
  returns : p.inside op = true → q.inside op = false → q.holds = p.base op

/-- Both places are in the operation, or both are not. -/
theorem Bracketed.same (hinside : q.inside op = p.inside op) (hbase : q.base op = p.base op) :
    Bracketed op p q where
  enters hp hq := by simp [hinside, hp] at hq
  stays _ _ := hbase
  returns hp hq := by simp [hinside, hp] at hq

/-- The thread holds nothing at either place. -/
theorem Bracketed.free (hp : p.holds = []) (hq : q.holds = []) (hbase : p.base op = [])
    (hbase' : q.base op = []) : Bracketed op p q where
  enters _ _ := by rw [hbase', hp]
  stays _ _ := by rw [hbase', hbase]
  returns _ _ := by rw [hbase, hq]

/-- The operation can only be left. -/
theorem Bracketed.exit (hinside : q.inside op = true → p.inside op = true)
    (hbase : p.base op = []) (hbase' : q.base op = []) (hq : q.holds = []) : Bracketed op p q where
  enters hp hq := by simp [hinside hq] at hp
  stays _ _ := by rw [hbase', hbase]
  returns _ _ := by rw [hbase, hq]

theorem bracketed_call {caller : Caller} {sln : Solution} (hholds : p.holds = caller.holds)
    (hinside : ∀ op, p.inside op = decide (op = caller.operation)) (hbase : ∀ op, p.base op = []) :
    Bracketed op p (.push caller sln .lookup) := by
  by_cases hop : op = .pushSolution
  · subst hop
    refine ⟨fun _ _ => hholds.symm, fun hp _ => ?_, fun _ hq => ?_⟩
    · rw [hinside] at hp
      cases caller <;> cases hp
    · cases hq
  · refine .same ?_ ?_
    · rw [hinside, CodePlace.inside, decide_eq_false hop, Bool.false_or]
    · rw [hbase]
      exact if_neg hop

theorem bracketed_back {caller : Caller} {sln : Solution} {p : PushPlace} :
    Bracketed op (.push caller sln p) caller.back := by
  cases caller with
  | poll rest | slot me c | drain me c =>
    cases op with
    | pushSolution =>
      refine ⟨fun hp => ?_, fun _ hq => ?_, fun _ _ => rfl⟩
      · cases hp
      · cases hq
    | _ => exact .same rfl rfl

theorem LoopPc.processes_leave {pc : LoopPc} (m : Mutex) (h : pc.processes .outside = true) :
    pc.processes (.leave m) = true := by
  cases pc <;> first | rfl | cases h

theorem LoopPc.handles_leave {pc : LoopPc} (m : Mutex) (h : pc.handles .outside = true) :
    pc.handles (.leave m) = true := by
  cases pc <;> first | rfl | cases h

theorem bracketed_leave {me : ClientRef} {l : Locals} {m : Mutex} :
    Bracketed op (.loop me l (.leave m)) (.loop me l .outside) := by
  refine .exit (fun h => ?_) rfl rfl rfl
  cases op with
  | processSolutions => exact LoopPc.processes_leave m h
  | resultHandling => exact LoopPc.handles_leave m h
  | _ => cases h

/-- The body of a section belongs to the operation that has locked it. -/
theorem bracketed_body {me : ClientRef} {l l' : Locals} {m : Mutex} {c c' : Client} {ev : LoopEv}
    (hev : ev.locked = true) (hstep : loopStep (c, l) ev = some (c', l')) :
    Bracketed op (.loop me l (.body m)) (.loop me l' (.leave m)) := by
  refine .same ?_ rfl
  obtain ⟨pc, errno⟩ := l
  obtain ⟨pc', errno'⟩ := l'
  rcases loopStep_locked hev hstep with ⟨rfl, rfl | ⟨sln, rfl⟩⟩ | ⟨⟨id, code, test, rfl⟩, rfl⟩ |
    ⟨rfl, rfl⟩ <;> cases op <;> rfl

theorem bracketed_enter {me : ClientRef} {l : Locals} {m : Mutex} (hm : l.pc.mutex me = some m) :
    Bracketed op (.loop me l .outside) (.loop me l (.body m)) := by
  refine .same ?_ rfl
  obtain ⟨pc, errno⟩ := l
  cases pc with
  | process | clearing | posting => cases op <;> rfl
  | _ => cases hm

theorem CodeRule.bracketed (op : Operation) (h : CodeRule d p i) : Bracketed op p i.next := by
  cases h with
  | enter hm => exact bracketed_enter hm
  | body hev hstep => exact bracketed_body hev hstep
  | leave => exact bracketed_leave
  | slot | pop | dispatch => exact bracketed_call rfl (fun op => by cases op <;> rfl) fun _ => rfl
  | noCompiler | noneChosen | unlockTarget => exact bracketed_back
  | announced | freed | failed => exact .exit (fun h => by cases op <;> cases h) rfl rfl rfl
  | refuse | accept | stop | find | left | event | initDb | noDb | sleep | stopped | dispatched
  | closeDb => exact .free rfl rfl rfl rfl
  | _ => exact .same rfl rfl

/-- Inside of an operation the base stays what the thread held when it called it. -/
theorem step_base {w : Who} {s s' : LockState} {a : Who × Decision}
    (hs : s.step serverCode a = some s') : Bracketed op (s.place w) (s'.place w) := by
  obtain ⟨v, x⟩ := a
  by_cases hv : w = v
  · subst hv
    obtain ⟨i, hi, hplace⟩ := State.step_next hs
    rw [hplace]
    exact (serverCode_rule hi).bracketed op
  · rw [State.step_other hs hv]
    exact .same rfl rfl

theorem run_base {w : Who} {s s' : LockState} {as : List (Who × Decision)}
    (hr : Run (State.step serverCode) s as s')
    (hin : Throughout (State.step serverCode) s as fun r => (r.place w).inside op = true) :
    (s'.place w).base op = (s.place w).base op := by
  induction hr with
  | nil => rfl
  | snoc hr hs ih =>
    obtain ⟨hpre, hlast⟩ := (throughout_snoc (hr.snoc hs)).1 hin
    have hbefore := hpre _ [] _ (List.append_nil _).symm hr
    rw [(step_base hs).stays hbefore hlast, ih hpre]

theorem performs_holds {w : Who} {s s' : LockState} (h : Performs w op s s') :
    (s'.place w).holds = (s.place w).holds := by
  obtain ⟨a, as, b, s₁, s₂, hout, ha, hr, hin, hb, hout'⟩ := h
  have hfirst := hin [] as s₁ rfl .nil
  have hlast := hin as [] s₂ (List.append_nil _).symm hr
  rw [(step_base hb).returns hlast hout', run_base hr hin, (step_base ha).enters hout hfirst]

end Operations

/-- No circular waiting, and nothing is left locked: a thread in none of the operations
owns no mutex, and after an operation it owns what it owned before. -/
structure DeadlockFree (s : LockState) : Prop where
  acyclic : ∀ w, ¬ Relation.TransGen (s.WaitsFor serverCode) w w
  idle : ∀ w, (∀ op, (s.place w).inside op = false) → ∀ m, s.owner m ≠ some w
  released : ∀ w op s', Performs w op s s' → ∀ m, s'.owner m = some w ↔ s.owner m = some w

theorem holds_of_idle {d : Shared} {p : CodePlace} (h : Sound d p)
    (hidle : ∀ op, p.inside op = false) : p.holds = [] := by
  cases p with
  | idle | done => rfl
  | register => cases hidle .registration
  | remove => cases hidle .removeClient
  | push => cases hidle .pushSolution
  | poll p => cases p with
    | extract | unlockDb => cases hidle .pollRound
    | _ => rfl
  | loop me l p =>
    have hprocess := hidle .processSolutions
    have hhandle := hidle .resultHandling
    obtain ⟨pc, errno⟩ := l
    cases p with
    | outside => rfl
    | body m =>
      have hm := h.sectioned
      cases pc with
      | process => cases hprocess
      | posting | clearing => cases hhandle
      | _ => cases hm
    | leave m =>
      rcases h.sectioned with rfl | rfl | rfl | ⟨sln, rfl⟩
      · cases hhandle
      · cases hhandle
      · cases hprocess
      · cases hprocess

theorem locks_deadlock_free (as : List (Who × Decision)) (s : LockState) (h : LockReaches as s) :
    DeadlockFree s := by
  have hd := lockReaches_described h
  refine ⟨waits_acyclic hd, fun w hidle m howner => ?_, fun w op s' hperforms m => ?_⟩
  · have hm := (hd.owner_iff m w).1 howner
    rw [show lockOutline.holds (s.place w) = [] from holds_of_idle (hd.relies w) hidle] at hm
    cases hm
  · have hd' : lockOutline.Describes s' := by
      obtain ⟨a, bs, b, s₁, s₂, -, ha, hr, -, hb, -⟩ := hperforms
      exact ((hd.step ha).run hr).step hb
    exact hd'.owner_congr hd (performs_holds hperforms) m

/-- A client connects, finds its queue empty and waits for a packet. -/
def serving (t : Tid) : List (Who × Decision) :=
  [(.worker t, .accept (some [5])), (.worker t, .go), (.worker t, .order []), (.worker t, .go),
    (.worker t, .go), (.worker t, .memory ⟨0, 0, []⟩), (.worker t, .go),
    (.worker t, .loop (.running true)), (.worker t, .go), (.worker t, .loop .process),
    (.worker t, .go)]

/-- The connection is reset, and the thread goes on for `n` steps. -/
def leaving (t : Tid) (n : ℕ) : List (Who × Decision) :=
  (.worker t, .loop (.recvLen [.failed .ECONNRESET])) :: List.replicate n (.worker t, .go)

def queuedSolution (addr : ℕ) : Solution := ⟨addr, 7, 0, 0, [0], 1, 5, 0, false, [], 0⟩

/-- Two clients get a solution each and leave: the first one's thread has chosen the
second client, which is then removed as well, while the third solution is dispatched. -/
def chainRun : List (Who × Decision) :=
  serving 0 ++ serving 1 ++
    [(.poll, .initDb true), (.poll, .go), (.poll, .go),
      (.poll, .extracted (some ((List.range 3).map queuedSolution)))] ++
    List.replicate 31 (.poll, .go) ++ leaving 0 22 ++ leaving 1 13 ++ List.replicate 3 (.poll, .go)

theorem locks_deadlock_free_chain : ∃ s, LockReaches chainRun s ∧
    s.WaitsFor serverCode (.worker 0) (.worker 1) ∧ s.WaitsFor serverCode (.worker 1) .poll ∧
    DeadlockFree s := by
  have hchain : (chainRun.foldlM (State.step serverCode) LockState.init).map (fun s =>
      (s.place (.worker 0), s.owner (.client 1), s.place (.worker 1), s.owner .clientsMap)) =
    some (.push (.drain 0 0) (queuedSolution 0) (.lockTarget 1), some (.worker 1),
      .push (.drain 1 1) (queuedSolution 1) (.lockMap 0), some .poll) := by decide +kernel
  obtain ⟨s, hs, heq⟩ := Option.map_eq_some_iff.1 hchain
  simp only [Prod.mk.injEq] at heq
  obtain ⟨hfirst, hclient, hsecond, hmap⟩ := heq
  have hrun : LockReaches chainRun s := Run.iff_foldlM.2 hs
  have hwaits : s.WaitsFor serverCode (.worker 0) (.worker 1) := by
    refine ⟨.client 1, .go, .push (.drain 0 0) (queuedSolution 0) (.append 1), ?_, hclient⟩
    rw [hfirst]
    rfl
  have hwaits' : s.WaitsFor serverCode (.worker 1) .poll := by
    refine ⟨.clientsMap, .go, .push (.drain 1 1) (queuedSolution 1) (.lockList 0), ?_, hmap⟩
    rw [hsecond]
    rfl
  exact ⟨s, hrun, hwaits, hwaits', locks_deadlock_free chainRun s hrun⟩

end JudgeServer
