import JudgeServer.Server.Deadlock

/-! Which accesses to shared data the mutexes of server.c do not keep apart. Left out are
`server_running`, which is volatile and set only once, and what only a client's own thread
uses until the client is freed: its buffers, its delays and its endpoint. -/

namespace JudgeServer

open Locking Transition

/-- The data behind the mutexes; for a uthash table, its buckets and the links in what it
holds. `links` are those in a client once it is out of `clients_map`. -/
inductive Resource
  | compilersMap
  | clientsList (k : CompilerRef)
  | clientsMap
  | lastClientId
  | solutionsQueue (c : ClientRef)
  | checkingSolution (c : ClientRef)
  | links (c : ClientRef)
  | conn
  deriving DecidableEq, Repr

inductive Mode
  | read
  | write
  deriving DecidableEq, Repr

/-- The pieces of code that access it. -/
inductive Site
  -- client_loop, process_solutions, post_result
  | create
  | announce
  | process
  | timeout
  | post
  | clear
  -- remove_client
  | find
  | visit
  | unlist
  | unmap
  | slot
  | unslot
  | drain
  | free
  -- poll_database
  | initDb
  | extract
  | closeDb
  -- push_solution
  | lookup
  | refuse
  | scan
  | load
  | append
  deriving DecidableEq, Repr

abbrev Accesses := List (Resource × Mode)

/-- `HASH_FIND_INT` and the additions for one announced id. -/
def announceAccesses (m : CompilersMap) (id : UInt16) (mem : CompilersMap.Memory) : Accesses :=
  match m.find (key16 id mem.behindLocal) with
  | some k => [(.compilersMap, .read), (.clientsList k, .write)]
  | none => [(.compilersMap, .write), (.clientsList m.next, .write)]

/-- On a timeout the loop looks whether its client is checking a solution. -/
def recvAccesses (me : ClientRef) (errno : Errno) (arrivals : List Arrival) : Accesses :=
  match recvAll 2 arrivals with
  | some t => if t.ret ≤ 0 ∧ (t.errno.getD errno).isTimeout then [(.checkingSolution me, .read)] else []
  | none => []

/-- What the thread accesses in the step it takes at this place; `none` where it is
nothing shared. A look-up without the mutex may stand on any client that was in the map when
it began, and a second `HASH_DEL` of a client uses its links again. -/
def accesses (d : Shared) : CodePlace → Decision → Option (Site × Accesses)
  | .register (.create _), _ => some (.create, [(.lastClientId, .write), (.clientsMap, .write)])
  | .register (.announce _ (id :: _)), .memory mem =>
    some (.announce, announceAccesses d.compilersMap id mem)
  | .loop me l .outside, .loop (.recvLen arrivals) =>
    some (.timeout, recvAccesses me l.errno arrivals)
  | .loop me _ (.body _), .loop .process =>
    match (d.clients me).solutionsQueue with
    | [] => some (.process, [(.solutionsQueue me, .read)])
    | _ :: _ => some (.process, [(.solutionsQueue me, .write), (.checkingSolution me, .write)])
  | .loop _ ⟨.posting id code test, _⟩ (.body _), .loop (.post _) =>
    some (.post, if (postResult id code test).isSome then [(.conn, .write)] else [])
  | .loop me _ (.body _), .loop .clear => some (.clear, [(.checkingSolution me, .write)])
  | .loop _ ⟨.removing, _⟩ .outside, .go =>
    some (.find, (.clientsMap, .read) :: (List.range d.nextClient).map fun c => (.links c, .read))
  | .remove _ _ (.visit _), _ => some (.visit, [(.compilersMap, .read)])
  | .remove _ _ (.unlist k _), _ => some (.unlist, [(.clientsList k, .write)])
  | .remove _ c .unmap, _ =>
    some (.unmap, [(.clientsMap, .write), (.links c, .write), (.lastClientId, .write)])
  | .remove _ c .slot, _ => some (.slot, [(.checkingSolution c, .read)])
  | .remove _ c .unslot, _ => some (.unslot, [(.checkingSolution c, .write)])
  | .remove _ c .drain, _ =>
    match (d.clients c).solutionsQueue with
    | [] => some (.drain, [(.solutionsQueue c, .read)])
    | _ :: _ => some (.drain, [(.solutionsQueue c, .write)])
  | .remove _ c .free, _ =>
    some (.free, [(.solutionsQueue c, .write), (.checkingSolution c, .write), (.links c, .write)])
  | .poll .initDb, _ => some (.initDb, [(.conn, .write)])
  | .poll .extract, _ => some (.extract, [(.conn, .write)])
  | .poll .closeDb, _ => some (.closeDb, [(.conn, .write)])
  | .push _ _ .lookup, _ => some (.lookup, [(.compilersMap, .read)])
  | .push _ _ .noCompiler, _ | .push _ _ (.noClients _), _ => some (.refuse, [(.conn, .write)])
  | .push _ _ (.scan k _ _ _), _ => some (.scan, [(.clientsList k, .read), (.clientsMap, .read)])
  | .push _ _ (.load _ _ _ _ cur), _ =>
    some (.load, [(.solutionsQueue cur, .read), (.checkingSolution cur, .read)])
  | .push _ _ (.append c), _ => some (.append, [(.solutionsQueue c, .write)])
  | _, _ => none

/-- Two accesses to one resource, at least one of them writing. -/
def Conflict (as bs : Accesses) : Prop :=
  ∃ a ∈ as, ∃ b ∈ bs, a.1 = b.1 ∧ (a.2 = .write ∨ b.2 = .write)

instance (as bs : Accesses) : Decidable (Conflict as bs) :=
  inferInstanceAs (Decidable (∃ _ ∈ as, ∃ _ ∈ bs, _))

/-- The thread goes on from `p` through the site. -/
def At (d : Shared) (p : CodePlace) (x : Decision) (a : Site) (as : Accesses) : Prop :=
  (serverCode d p x).isSome ∧ accesses d p x = some (a, as)

/-- Two threads are at conflicting accesses, and each of them can go on. -/
def Race (s : LockState) (a b : Site) : Prop :=
  ∃ v w x y as bs, v ≠ w ∧ At s.data (s.place v) x a as ∧ At s.data (s.place w) y b bs ∧
    Conflict as bs

/-- The look-ups of `push_solution` and `remove_client` take no mutex, `client_loop` adds
to the list of a compiler without its `list_mutex` and looks at the slot on a timeout, the
queries of `push_solution`, as the opening and the closing of the connection, are outside of
`db_mutex`, and `client_free` frees a client without its mutex. -/
def races : List (Site × Site) :=
  [(.lookup, .announce), (.scan, .announce), (.find, .create), (.find, .unmap), (.timeout, .unslot),
    (.refuse, .refuse), (.refuse, .post), (.refuse, .extract), (.refuse, .closeDb), (.post, .initDb),
    (.post, .closeDb), (.free, .append), (.free, .find), (.free, .timeout), (.free, .process),
    (.free, .clear), (.free, .unmap), (.free, .slot), (.free, .unslot), (.free, .drain),
    (.free, .free)]

/-! The accesses of each place, one rule for each of them. -/

inductive Touches : CodePlace → Site → Resource → Mode → Prop
  | created {compilers : List UInt16} :
      Touches (.register (.create compilers)) .create .lastClientId .write
  | create {compilers : List UInt16} :
      Touches (.register (.create compilers)) .create .clientsMap .write
  | looked {me : ClientRef} {ids : List UInt16} {m : Mode} :
      Touches (.register (.announce me ids)) .announce .compilersMap m
  | announce {me : ClientRef} {ids : List UInt16} {k : CompilerRef} :
      Touches (.register (.announce me ids)) .announce (.clientsList k) .write
  | timeout {me : ClientRef} {l : Locals} :
      Touches (.loop me l .outside) .timeout (.checkingSolution me) .read
  | processed {me : ClientRef} {l : Locals} {m : Mode} :
      Touches (.loop me l (.body (.client me))) .process (.solutionsQueue me) m
  | process {me : ClientRef} {l : Locals} :
      Touches (.loop me l (.body (.client me))) .process (.checkingSolution me) .write
  | post {me : ClientRef} {l : Locals} : Touches (.loop me l (.body .db)) .post .conn .write
  | clear {me : ClientRef} {l : Locals} :
      Touches (.loop me l (.body (.client me))) .clear (.checkingSolution me) .write
  | find {me : ClientRef} {l : Locals} : Touches (.loop me l .outside) .find .clientsMap .read
  | found {me c : ClientRef} {l : Locals} : Touches (.loop me l .outside) .find (.links c) .read
  | visit {me c : ClientRef} {ks : List CompilerRef} :
      Touches (.remove me c (.visit ks)) .visit .compilersMap .read
  | unlist {me c : ClientRef} {k : CompilerRef} {ks : List CompilerRef} :
      Touches (.remove me c (.unlist k ks)) .unlist (.clientsList k) .write
  | unmap {me c : ClientRef} : Touches (.remove me c .unmap) .unmap .clientsMap .write
  | unmapped {me c : ClientRef} : Touches (.remove me c .unmap) .unmap .lastClientId .write
  | unlinked {me c : ClientRef} : Touches (.remove me c .unmap) .unmap (.links c) .write
  | slot {me c : ClientRef} : Touches (.remove me c .slot) .slot (.checkingSolution c) .read
  | unslot {me c : ClientRef} : Touches (.remove me c .unslot) .unslot (.checkingSolution c) .write
  | drain {me c : ClientRef} {m : Mode} :
      Touches (.remove me c .drain) .drain (.solutionsQueue c) m
  | freeQueue {me c : ClientRef} : Touches (.remove me c .free) .free (.solutionsQueue c) .write
  | freeSlot {me c : ClientRef} : Touches (.remove me c .free) .free (.checkingSolution c) .write
  | freeLinks {me c : ClientRef} : Touches (.remove me c .free) .free (.links c) .write
  | initDb : Touches (.poll .initDb) .initDb .conn .write
  | extract : Touches (.poll .extract) .extract .conn .write
  | closeDb : Touches (.poll .closeDb) .closeDb .conn .write
  | lookup {caller : Caller} {sln : Solution} :
      Touches (.push caller sln .lookup) .lookup .compilersMap .read
  | noCompiler {caller : Caller} {sln : Solution} :
      Touches (.push caller sln .noCompiler) .refuse .conn .write
  | noClients {caller : Caller} {sln : Solution} {k : CompilerRef} :
      Touches (.push caller sln (.noClients k)) .refuse .conn .write
  | scanned {caller : Caller} {sln : Solution} {k : CompilerRef} {i : ℕ} {least : UInt32}
      {best : Option ClientRef} :
      Touches (.push caller sln (.scan k i least best)) .scan (.clientsList k) .read
  | scan {caller : Caller} {sln : Solution} {k : CompilerRef} {i : ℕ} {least : UInt32}
      {best : Option ClientRef} :
      Touches (.push caller sln (.scan k i least best)) .scan .clientsMap .read
  | loadQueue {caller : Caller} {sln : Solution} {k : CompilerRef} {i : ℕ} {least : UInt32}
      {best : Option ClientRef} {cur : ClientRef} :
      Touches (.push caller sln (.load k i least best cur)) .load (.solutionsQueue cur) .read
  | loadSlot {caller : Caller} {sln : Solution} {k : CompilerRef} {i : ℕ} {least : UInt32}
      {best : Option ClientRef} {cur : ClientRef} :
      Touches (.push caller sln (.load k i least best cur)) .load (.checkingSolution cur) .read
  | append {caller : Caller} {sln : Solution} {c : ClientRef} :
      Touches (.push caller sln (.append c)) .append (.solutionsQueue c) .write

theorem announce_touches {m : CompilersMap} {me : ClientRef} {id : UInt16} {ids : List UInt16}
    {mem : CompilersMap.Memory} {r : Resource} {mode : Mode}
    (h : (r, mode) ∈ announceAccesses m id mem) :
    Touches (.register (.announce me ids)) .announce r mode := by
  unfold announceAccesses at h
  split at h <;> simp only [List.mem_cons, Prod.mk.injEq, List.not_mem_nil, or_false] at h
  all_goals
    rcases h with ⟨rfl, rfl⟩ | ⟨rfl, rfl⟩
    · exact .looked
    · exact .announce

theorem recv_touches {me : ClientRef} {l : Locals} {errno : Errno} {arrivals : List Arrival}
    {r : Resource} {mode : Mode} (h : (r, mode) ∈ recvAccesses me errno arrivals) :
    Touches (.loop me l .outside) .timeout r mode := by
  unfold recvAccesses at h
  split at h
  · split_ifs at h
    · obtain ⟨rfl, rfl⟩ := Prod.mk.inj (List.mem_singleton.1 h)
      exact .timeout
    · cases h
  · cases h

/-- The sections of `process_solutions` and of the OP_RESULT branch. -/
theorem section_client {d : Shared} {me : ClientRef} {l : Locals} {m : Mutex} {ev : LoopEv}
    (hp : Sound d (.loop me l (.body m))) (hev : ev = .process ∨ ev = .clear)
    (hcode : (serverCode d (.loop me l (.body m)) (.loop ev)).isSome) : m = .client me := by
  have hlocked : ev.locked = true := by rcases hev with rfl | rfl <;> rfl
  obtain ⟨i, hi⟩ := Option.isSome_iff_exists.1 hcode
  simp only [serverCode, loopNext, hlocked, if_true, Option.map_eq_some_iff] at hi
  obtain ⟨r, hstep, -⟩ := hi
  have hsection := hp.sectioned
  have hrule := loopStep_rule hstep
  rcases hev with rfl | rfl
  · cases hrule with
    | idle | pop => exact (Option.some.inj hsection).symm
  · cases hrule with
    | clear => exact (Option.some.inj hsection).symm

theorem At.touches {d : Shared} {p : CodePlace} {x : Decision} {a : Site} {as : Accesses}
    (hp : Sound d p) (h : At d p x a as) {r : Resource} {m : Mode} (hr : (r, m) ∈ as) :
    Touches p a r m := by
  obtain ⟨hcode, hacc⟩ := h
  unfold accesses at hacc
  split at hacc
  case h_2 =>
    obtain ⟨rfl, rfl⟩ := Prod.mk.inj (Option.some.inj hacc)
    exact announce_touches hr
  case h_3 =>
    obtain ⟨rfl, rfl⟩ := Prod.mk.inj (Option.some.inj hacc)
    exact recv_touches hr
  case h_4 =>
    obtain rfl := section_client hp (Or.inl rfl) hcode
    split at hacc <;> obtain ⟨rfl, rfl⟩ := Prod.mk.inj (Option.some.inj hacc)
    · obtain ⟨rfl, rfl⟩ := Prod.mk.inj (List.mem_singleton.1 hr)
      exact .processed
    · rcases List.mem_pair.1 hr with hr | hr <;> obtain ⟨rfl, rfl⟩ := Prod.mk.inj hr
      · exact .processed
      · exact .process
  case h_5 =>
    obtain rfl := Option.some.inj hp.sectioned
    obtain ⟨rfl, rfl⟩ := Prod.mk.inj (Option.some.inj hacc)
    split_ifs at hr
    · obtain ⟨rfl, rfl⟩ := Prod.mk.inj (List.mem_singleton.1 hr)
      exact .post
    · cases hr
  case h_6 =>
    obtain rfl := section_client hp (Or.inr rfl) hcode
    obtain ⟨rfl, rfl⟩ := Prod.mk.inj (Option.some.inj hacc)
    obtain ⟨rfl, rfl⟩ := Prod.mk.inj (List.mem_singleton.1 hr)
    exact .clear
  case h_7 =>
    obtain ⟨rfl, rfl⟩ := Prod.mk.inj (Option.some.inj hacc)
    rcases List.mem_cons.1 hr with hr | hr
    · obtain ⟨rfl, rfl⟩ := Prod.mk.inj hr
      exact .find
    · obtain ⟨c, -, heq⟩ := List.mem_map.1 hr
      obtain ⟨rfl, rfl⟩ := Prod.mk.inj heq
      exact .found
  case h_10 | h_14 =>
    obtain ⟨rfl, rfl⟩ := Prod.mk.inj (Option.some.inj hacc)
    simp only [List.mem_cons, Prod.mk.injEq, List.not_mem_nil, or_false] at hr
    rcases hr with ⟨rfl, rfl⟩ | ⟨rfl, rfl⟩ | ⟨rfl, rfl⟩ <;> constructor
  case h_13 =>
    split at hacc <;> obtain ⟨rfl, rfl⟩ := Prod.mk.inj (Option.some.inj hacc) <;>
      obtain ⟨rfl, rfl⟩ := Prod.mk.inj (List.mem_singleton.1 hr) <;> exact .drain
  case h_1 | h_21 | h_22 =>
    obtain ⟨rfl, rfl⟩ := Prod.mk.inj (Option.some.inj hacc)
    rcases List.mem_pair.1 hr with hr | hr <;> obtain ⟨rfl, rfl⟩ := Prod.mk.inj hr <;> constructor
  case h_24 => cases hacc
  all_goals
    obtain ⟨rfl, rfl⟩ := Prod.mk.inj (Option.some.inj hacc)
    obtain ⟨rfl, rfl⟩ := Prod.mk.inj (List.mem_singleton.1 hr)
    constructor

/-! What the order of the program keeps apart. -/

def Caller.serves : Caller → Option ClientRef
  | .poll _ => none
  | .slot me _ | .drain me _ => some me

/-- The client whose `client_loop` the thread is in. -/
def CodePlace.serves : CodePlace → Option ClientRef
  | .register (.unlockClients me _) | .register (.lockCompilers me _)
  | .register (.announce me _) => some me
  | .loop me _ _ | .remove me _ _ => some me
  | .push caller _ _ => caller.serves
  | _ => none

def Caller.polls : Caller → Bool
  | .poll _ => true
  | _ => false

def CodePlace.polls : CodePlace → Bool
  | .poll _ => true
  | .push caller _ _ => caller.polls
  | _ => false

def CodePlace.pushes : CodePlace → Bool
  | .push _ _ _ => true
  | _ => false

/-- Two places that different threads are never at; in `gone` one thread has taken the
client out of `clients_map` and the other has just found it there. -/
inductive Excluded (p q : CodePlace) : Prop
  | client {me : ClientRef} (hp : p.serves = some me) (hq : q.serves = some me)
  | poll (hp : p.polls = true) (hq : q.polls = true)
  | early (hp : p = .poll .initDb) (hq : q.pushes = true)
  | gone {c : ClientRef} (hp : p.unmapped = some c) (hq : c ∈ q.scanned)

/-- Two conflicting accesses share a mutex, or the program never makes them at once, but
for the races. -/
theorem Touches.apart {p q : CodePlace} {a b : Site} {r : Resource} {m n : Mode}
    (ha : Touches p a r m) (hb : Touches q b r n) (hw : m = .write ∨ n = .write) :
    (∃ x ∈ p.holds, x ∈ q.holds) ∨ (Excluded p q ∨ Excluded q p) ∨
      (a, b) ∈ races ∨ (b, a) ∈ races := by
  cases ha <;> cases hb
  all_goals
    first
    | exact absurd hw (by decide)
    | exact Or.inr (Or.inr (Or.inl (by decide)))
    | exact Or.inr (Or.inr (Or.inr (by decide)))
    | exact Or.inr (Or.inl (Or.inl (.client rfl rfl)))
    | exact Or.inr (Or.inl (Or.inl (.poll rfl rfl)))
    | exact Or.inr (Or.inl (Or.inl (.early rfl rfl)))
    | exact Or.inr (Or.inl (Or.inr (.early rfl rfl)))
    | exact Or.inr (Or.inl (Or.inl (.gone rfl (List.mem_cons_self ..))))
    | exact Or.inr (Or.inl (Or.inr (.gone rfl (List.mem_cons_self ..))))
    | left
      simp [CodePlace.holds, RegisterPlace.holds, LoopPlace.holds, RemovePlace.holds,
        PollPlace.holds, PushPlace.holds]

/-- There are no solutions yet. -/
def NoSolutions (d : Shared) : Prop :=
  ∀ c, (d.clients c).solutionsQueue = [] ∧ (d.clients c).checkingSolution = none

theorem NoSolutions.setClient {d : Shared} (h : NoSolutions d) {c : ClientRef} {client : Client}
    (hqueue : client.solutionsQueue = []) (hslot : client.checkingSolution = none) :
    NoSolutions (d.setClient c client) := by
  intro e
  by_cases he : e = c
  · subst he
    simp only [Shared.setClient, Function.update_self, hqueue, hslot, and_self]
  · simpa only [Shared.setClient, Function.update_of_ne he] using h e

/-- A step of the loop does not bring the first solution. -/
theorem NoSolutions.loopStep {d : Shared} (h : NoSolutions d) {me : ClientRef} {l : Locals} {ev : LoopEv}
    {r : Client × Locals} (hpush : ∀ sln, ev ≠ .push sln)
    (hstep : loopStep (d.clients me, l) ev = some r) : NoSolutions (d.setClient me r.1) := by
  obtain ⟨hqueue, hslot⟩ := h me
  cases loopStep_holding hstep with
  | pop hpop =>
    rw [hqueue] at hpop
    cases hpop
  | clear heq => exact h.setClient (by rw [heq]; exact hqueue) (by rw [heq]; rfl)
  | push heq => exact absurd rfl (hpush _)
  | same hsame => exact h.setClient (hsame.queue.trans hqueue) (hsame.slot.trans hslot)

theorem NoSolutions.code {d : Shared} {p : CodePlace} {x : Decision} {i : Instr Mutex Shared CodePlace}
    (h : NoSolutions d) (hp : p.pushes = false) (hpoll : p.polls = false) (hi : serverCode d p x = some i) :
    i.next.pushes = false ∧ NoSolutions (i.leaves d) := by
  cases p with
  | idle =>
    cases serverCode_rule hi with
    | refuse | accept | stop => exact ⟨rfl, h⟩
  | register p =>
    cases registerNext_rule hi with
    | create =>
      refine ⟨rfl, fun c => ?_⟩
      by_cases hc : c = d.nextClient
      · subst hc
        simp [Instr.leaves, clientCreate]
      · simpa [Instr.leaves, Function.update_of_ne hc] using h c
    | _ => exact ⟨rfl, h⟩
  | loop me l p =>
    have hi : loopNext d me l p x = some i := hi
    unfold loopNext at hi
    split at hi
    · split at hi
      · cases hi
        exact ⟨rfl, h⟩
      · split_ifs at hi
        · split at hi <;> cases hi <;> exact ⟨rfl, h⟩
        · cases hi
          exact ⟨rfl, h⟩
    · rename_i ev
      split_ifs at hi with hadmits
      obtain ⟨r, hstep, rfl⟩ := Option.map_eq_some_iff.1 hi
      refine ⟨rfl, h.loopStep (fun sln heq => ?_) hstep⟩
      subst heq
      cases hadmits
    · rename_i ev
      split_ifs at hi with hlocked
      obtain ⟨r, hstep, rfl⟩ := Option.map_eq_some_iff.1 hi
      refine ⟨rfl, h.loopStep (fun sln heq => ?_) hstep⟩
      subst heq
      cases hlocked
    · cases hi
      exact ⟨rfl, h⟩
    · cases hi
  | remove me c p =>
    have hi : removeNext d me c p x = some i := hi
    obtain ⟨hqueue, hslot⟩ := h c
    unfold removeNext at hi
    split at hi
    case h_10 =>
      rw [hslot] at hi
      cases hi
      exact ⟨rfl, h⟩
    case h_11 =>
      cases hi
      exact ⟨rfl, h.setClient hqueue rfl⟩
    case h_12 =>
      rw [hqueue] at hi
      cases hi
      exact ⟨rfl, h⟩
    case h_13 =>
      cases hi
      exact ⟨rfl, h.setClient rfl rfl⟩
    all_goals cases hi
    all_goals exact ⟨rfl, h⟩
  | poll => cases hpoll
  | push => cases hp
  | done => cases hi

/-- Each client has one thread, one thread polls, and until it has opened the connection
there are no solutions. -/
structure Orderly (s : LockState) : Prop where
  born : ∀ w me, (s.place w).serves = some me → me < s.data.nextClient
  alone : ∀ v w me, (s.place v).serves = some me → (s.place w).serves = some me → v = w
  polling : ∀ w, (s.place w).polls = true → w = .poll
  early : s.place .poll = .poll .initDb → (∀ w, (s.place w).pushes = false) ∧ NoSolutions s.data

theorem orderly_init : Orderly LockState.init where
  born w me h := by cases w <;> cases h
  alone v w me h _ := by cases v <;> cases h
  polling w h := by
    cases w with
    | poll => rfl
    | worker t => cases h
  early _ := by
    refine ⟨fun w => ?_, fun c => ⟨rfl, rfl⟩⟩
    cases w <;> rfl

theorem CodeRule.serves {d : Shared} {p : CodePlace} {i : Instr Mutex Shared CodePlace}
    (h : CodeRule d p i) : i.next.serves = p.serves ∨ i.next.serves = none ∨
      i.next.serves = some d.nextClient ∧ (i.leaves d).nextClient = d.nextClient + 1 := by
  cases h with
  | create => exact Or.inr (Or.inr ⟨rfl, rfl⟩)
  | left | refuse | stop | noDb | closeDb | freed => exact Or.inr (Or.inl rfl)
  | @noCompiler caller | @noneChosen caller | @unlockTarget caller =>
    cases caller <;> exact Or.inl rfl
  | _ => exact Or.inl rfl

theorem CodeRule.polls {d : Shared} {p : CodePlace} {i : Instr Mutex Shared CodePlace}
    (h : CodeRule d p i) (hi : i.next.polls = true) : p.polls = true := by
  cases h with
  | @noCompiler caller | @noneChosen caller | @unlockTarget caller => cases caller <;> exact hi
  | left | refuse | stop | noDb | closeDb | freed => cases hi
  | _ => exact hi

/-- The connection is opened first, and only once. -/
theorem CodeRule.not_initDb {d : Shared} {p : CodePlace} {i : Instr Mutex Shared CodePlace}
    (h : CodeRule d p i) : i.next ≠ .poll .initDb := by
  cases h with
  | @noCompiler caller | @noneChosen caller | @unlockTarget caller =>
    cases caller <;> simp [Instr.next, Caller.back]
  | _ => simp [Instr.next]

theorem CodeRule.nextClient {d : Shared} {p : CodePlace} {i : Instr Mutex Shared CodePlace}
    (h : CodeRule d p i) : d.nextClient ≤ (i.leaves d).nextClient := by
  cases h with
  | create => exact Nat.le_succ _
  | _ => exact le_rfl

namespace Orderly

theorem step {s s' : LockState} {a : Who × Decision} (h : Orderly s)
    (hs : s.step serverCode a = some s') : Orderly s' := by
  obtain ⟨w, x⟩ := a
  obtain ⟨i, hi, hdata, hplace⟩ := State.step_instr hs
  have hrule := serverCode_rule hi
  have hown : s'.place w = i.next := by rw [hplace, Function.update_self]
  have hother : ∀ {v}, v ≠ w → s'.place v = s.place v := fun hv => by
    rw [hplace, Function.update_of_ne hv]
  -- a client that the thread serves now it has served before, or it is new
  have hserves : ∀ me, (s'.place w).serves = some me → (s.place w).serves = some me ∨
      me = s.data.nextClient ∧ s'.data.nextClient = s.data.nextClient + 1 := by
    intro me hme
    rw [hown] at hme
    rcases hrule.serves with heq | hnone | ⟨hnew, hnext⟩
    · exact Or.inl (heq ▸ hme)
    · rw [hnone] at hme
      cases hme
    · rw [hnew] at hme
      exact Or.inr ⟨(Option.some.inj hme).symm, hdata ▸ hnext⟩
  have hnext : s.data.nextClient ≤ s'.data.nextClient := hdata ▸ hrule.nextClient
  have halone : ∀ v me, v ≠ w → (s'.place v).serves = some me → (s'.place w).serves = some me →
      False := by
    intro v me hv hserve hme
    rw [hother hv] at hserve
    rcases hserves me hme with hold | ⟨rfl, -⟩
    · exact hv (h.alone v w me hserve hold)
    · exact Nat.lt_irrefl _ (h.born v _ hserve)
  refine ⟨fun v me hme => ?_, fun v u me hv hu => ?_, fun v hv => ?_, fun hpoll => ?_⟩
  · by_cases hvw : v = w
    · subst hvw
      rcases hserves me hme with hold | ⟨rfl, hlt⟩
      · exact (h.born v me hold).trans_le hnext
      · rw [hlt]
        exact Nat.lt_succ_self _
    · rw [hother hvw] at hme
      exact (h.born v me hme).trans_le hnext
  · by_cases hvw : v = w
    · subst hvw
      by_cases huv : u = v
      · exact huv.symm
      · exact (halone u me huv hu hv).elim
    · by_cases huw : u = w
      · subst huw
        exact (halone v me hvw hv hu).elim
      · rw [hother hvw] at hv
        rw [hother huw] at hu
        exact h.alone v u me hv hu
  · by_cases hvw : v = w
    · subst hvw
      rw [hown] at hv
      exact h.polling v (hrule.polls hv)
    · rw [hother hvw] at hv
      exact h.polling v hv
  · have hw : w ≠ .poll := by
      rintro rfl
      exact hrule.not_initDb (hown.symm.trans hpoll)
    rw [hother hw.symm] at hpoll
    obtain ⟨hpushes, hquiet⟩ := h.early hpoll
    have hpolls : (s.place w).polls = false := by
      by_contra hp
      exact hw (h.polling w (by simpa using hp))
    obtain ⟨hnot, hstill⟩ := hquiet.code (hpushes w) hpolls hi
    refine ⟨fun v => ?_, hdata ▸ hstill⟩
    by_cases hvw : v = w
    · subst hvw
      rw [hown]
      exact hnot
    · rw [hother hvw]
      exact hpushes v

end Orderly

theorem lockReaches_orderly {as : List (Who × Decision)} {s : LockState} (h : LockReaches as s) :
    Orderly s := h.invariant orderly_init fun _ _ _ ho hs => ho.step hs

theorem Orderly.not_excluded {s : LockState} (h : Orderly s) (hd : lockOutline.Describes s)
    {v w : Who} (hvw : v ≠ w) (hex : Excluded (s.place v) (s.place w)) : False := by
  cases hex with
  | client hp hq => exact hvw (h.alone v w _ hp hq)
  | poll hp hq => exact hvw ((h.polling v hp).trans (h.polling w hq).symm)
  | early hp hq =>
    obtain rfl := h.polling v (by rw [hp]; rfl)
    rw [(h.early hp).1 w] at hq
    cases hq
  | @gone c hp hq =>
    have hgone := (hd.relies v).gone c ((hd.relies v).unmapped c hp)
    exact hgone.2 ((hd.relies w).scanned c hq)

/-- Whatever races is in the list. -/
theorem Race.listed {as : List (Who × Decision)} {s : LockState} (h : LockReaches as s) {a b : Site}
    (hrace : Race s a b) : (a, b) ∈ races ∨ (b, a) ∈ races := by
  obtain ⟨v, w, x, y, as, bs, hvw, ha, hb, ⟨r, m⟩, hm, ⟨r', n⟩, hn, heq, hw⟩ := hrace
  obtain rfl : r = r' := heq
  have hd := lockReaches_described h
  rcases (ha.touches (hd.relies v) hm).apart (hb.touches (hd.relies w) hn) hw with
    ⟨z, hz, hz'⟩ | (hex | hex) | hlisted
  · exact absurd hz' (hd.disjoint hvw hz)
  · exact ((lockReaches_orderly h).not_excluded hd hvw hex).elim
  · exact ((lockReaches_orderly h).not_excluded hd hvw.symm hex).elim
  · exact hlisted

theorem Race.symm {s : LockState} {a b : Site} (h : Race s a b) : Race s b a := by
  obtain ⟨v, w, x, y, as, bs, hvw, ha, hb, c, hc, e, he, heq, hw⟩ := h
  exact ⟨w, v, y, x, bs, as, hvw.symm, hb, ha, e, he, c, hc, heq.symm, hw.symm⟩

/-! Runs to the races. -/

/-- The threads `v` and `w`, deciding on `x` and `y`, race in this state. -/
def raceAt (v w : Who) (x y : Decision) (a b : Site) (s : LockState) : Bool :=
  match accesses s.data (s.place v) x, accesses s.data (s.place w) y with
  | some (a', as), some (b', bs) =>
    v ≠ w ∧ (serverCode s.data (s.place v) x).isSome ∧ (serverCode s.data (s.place w) y).isSome ∧
      a' = a ∧ b' = b ∧ Conflict as bs
  | _, _ => false

theorem meets {as : List (Who × Decision)} {v w : Who} {x y : Decision} {a b : Site}
    (h : (as.foldlM (State.step serverCode) LockState.init).any (raceAt v w x y a b) = true) :
    ∃ as s, LockReaches as s ∧ Race s a b := by
  obtain ⟨s, hrun, hrace⟩ := (Option.any_eq_true _ _).1 h
  refine ⟨as, s, Run.iff_foldlM.2 hrun, ?_⟩
  unfold raceAt at hrace
  split at hrace
  · rename_i hv hw
    obtain ⟨hvw, hx, hy, rfl, rfl, hconflict⟩ := of_decide_eq_true hrace
    exact ⟨v, w, x, y, _, _, hvw, ⟨hx, hv⟩, ⟨hy, hw⟩, hconflict⟩
  · cases hrace

/-- A client for these compilers connects. -/
def entering (t : Tid) (compilers : List UInt16) : List (Who × Decision) :=
  [(.worker t, .accept (some compilers)), (.worker t, .go), (.worker t, .order []), (.worker t, .go),
    (.worker t, .go)]

def goes (w : Who) (n : ℕ) : List (Who × Decision) := List.replicate n (w, .go)

/-- A poll finds these solutions. -/
def polling (slns : List Solution) : List (Who × Decision) :=
  goes .poll 2 ++ [(.poll, .extracted (some slns))] ++ goes .poll 1

/-- The loop comes to `process_solutions`, and into its section. -/
def processing (t : Tid) : List (Who × Decision) :=
  [(.worker t, .loop (.running true)), (.worker t, .go), (.worker t, .loop .process), (.worker t, .go)]

/-- A client that announces nothing connects and waits for a packet. -/
def waiting (t : Tid) : List (Who × Decision) :=
  entering t [] ++ goes (.worker t) 1 ++ processing t

/-- A client announces a compiler that is known already. -/
def connecting (t : Tid) : List (Who × Decision) :=
  entering t [5] ++ [(.worker t, .memory ⟨0, 0, []⟩), (.worker t, .go)]

/-- A verdict comes in, up to its query. -/
def judging (t : Tid) : List (Who × Decision) :=
  [(.worker t, .loop (.recvLen [.data [0, 7]])),
    (.worker t, .loop (.recvBody [.data [109, 0, 0, 0, 1, 0, 0]] [])), (.worker t, .go)]

/-- A solution for compiler 6, which nobody announces. -/
def unsupported : Solution := ⟨1, 8, 0, 0, [0], 1, 6, 0, false, [], 0⟩

/-- Threads 0 to 2 leave, join and announce, while the polling thread dispatches. -/
def lookupRun : List (Who × Decision) :=
  serving 0 ++ leaving 0 0 ++ entering 2 [9] ++ [(.poll, .initDb true)] ++
    polling [queuedSolution 0] ++ goes .poll 1 ++ [(.worker 1, .accept (some [])), (.worker 1, .go)]

def unmapRun : List (Who × Decision) := serving 0 ++ serving 1 ++ leaving 0 0 ++ leaving 1 7

def scanRun : List (Who × Decision) :=
  serving 0 ++ entering 1 [5] ++ [(.poll, .initDb true)] ++ polling [queuedSolution 0] ++ goes .poll 4

/-- Clients 1 and 2 have the same id, and thread 1 removes client 2. -/
def slotRun : List (Who × Decision) :=
  serving 0 ++ serving 1 ++ leaving 0 12 ++ connecting 2 ++ [(.poll, .initDb true)] ++
    polling [queuedSolution 0] ++ goes .poll 13 ++ processing 2 ++
    [(.worker 2, .loop (.send [.moved 16]))] ++ leaving 1 18

/-- A verdict before the database is open. -/
def earlyRun : List (Who × Decision) := waiting 1 ++ judging 1

/-- Client 0 has a solution in its queue, client 1 waits. -/
def queuedRun : List (Who × Decision) :=
  serving 0 ++ waiting 1 ++ [(.poll, .initDb true)] ++ polling [queuedSolution 0] ++ goes .poll 13

def extractRun : List (Who × Decision) := queuedRun ++ leaving 0 16 ++ goes .poll 3

def refuseRun : List (Who × Decision) :=
  queuedRun ++ goes .poll 1 ++ polling [unsupported] ++ goes .poll 2 ++ leaving 0 16 ++ judging 1

def closeRun : List (Who × Decision) :=
  queuedRun ++ [(.worker 2, .stop)] ++ goes .poll 2 ++ leaving 0 16 ++ judging 1

/-- Client 0 is drained between its choice and the append; thread 1 waits. -/
def freeRun : List (Who × Decision) :=
  serving 0 ++ waiting 1 ++ [(.poll, .initDb true)] ++ polling [queuedSolution 0] ++ goes .poll 10 ++
    leaving 0 12

/-- Client 2 is drained by thread 1 while its own thread goes on with it. -/
def strangerRun : List (Who × Decision) := slotRun ++ goes (.worker 1) 2

/-- The threads 1 and 2 have both found client 2, and thread 1 has drained it. -/
def twiceRun : List (Who × Decision) :=
  serving 0 ++ serving 1 ++ leaving 0 12 ++ connecting 2 ++ processing 2 ++ leaving 2 1 ++ leaving 1 12

/-- The clients 2, 4 and 5 have the same id. Both other threads remove client 5, whose own
thread has taken what was pushed to it when thread 2 had drained it. -/
def thriceRun : List (Who × Decision) :=
  waiting 0 ++ waiting 1 ++ waiting 2 ++ leaving 0 9 ++ leaving 1 9 ++ waiting 3 ++ waiting 4 ++
    leaving 3 9 ++ connecting 5 ++ [(.poll, .initDb true)] ++ polling [queuedSolution 0] ++
    goes .poll 10 ++ leaving 4 1 ++ leaving 2 12 ++ goes .poll 3 ++ processing 5 ++ goes (.worker 4) 17

theorem races_happen : ∀ p ∈ races, ∃ as s, LockReaches as s ∧ Race s p.1 p.2 := by
  simp only [races, List.forall_mem_cons]
  refine ⟨?_, ?_, ?_, ?_, ?_, ?_, ?_, ?_, ?_, ?_, ?_, ?_, ?_, ?_, ?_, ?_, ?_, ?_, ?_, ?_, ?_,
    fun p hp => by cases hp⟩
  · exact @meets lookupRun .poll (.worker 2) .go (.memory ⟨0, 0, []⟩) _ _ (by decide +kernel)
  · exact @meets scanRun .poll (.worker 1) .go (.memory ⟨0, 0, []⟩) _ _ (by decide +kernel)
  · exact @meets lookupRun (.worker 0) (.worker 1) .go (.order []) _ _ (by decide +kernel)
  · exact @meets unmapRun (.worker 0) (.worker 1) .go .go _ _ (by decide +kernel)
  · exact @meets slotRun (.worker 2) (.worker 1) (.loop (.recvLen [.failed .EAGAIN])) .go _ _
      (by decide +kernel)
  · exact @meets refuseRun (.worker 0) .poll .go .go _ _ (by decide +kernel)
  · exact @meets refuseRun (.worker 0) (.worker 1) .go (.loop (.post true)) _ _ (by decide +kernel)
  · exact @meets extractRun (.worker 0) .poll .go (.extracted none) _ _ (by decide +kernel)
  · exact @meets closeRun (.worker 0) .poll .go .go _ _ (by decide +kernel)
  · exact @meets earlyRun (.worker 1) .poll (.loop (.post true)) (.initDb true) _ _ (by decide +kernel)
  · exact @meets closeRun (.worker 1) .poll (.loop (.post true)) .go _ _ (by decide +kernel)
  · exact @meets (freeRun ++ goes .poll 1) (.worker 0) .poll .go .go _ _ (by decide +kernel)
  · exact @meets (freeRun ++ leaving 1 0) (.worker 0) (.worker 1) .go .go _ _ (by decide +kernel)
  · exact @meets strangerRun (.worker 1) (.worker 2) .go (.loop (.recvLen [.failed .EAGAIN])) _ _
      (by decide +kernel)
  · exact @meets (strangerRun ++ (.worker 2, .loop (.recvLen [.failed .EAGAIN])) ::
      (processing 2).take 2) (.worker 1) (.worker 2) .go (.loop .process) _ _ (by decide +kernel)
  · exact @meets (strangerRun ++ judging 2 ++ (.worker 2, .loop (.post true)) :: goes (.worker 2) 2)
      (.worker 1) (.worker 2) .go (.loop .clear) _ _ (by decide +kernel)
  · exact @meets (twiceRun ++ goes (.worker 2) 6) (.worker 1) (.worker 2) .go .go _ _
      (by decide +kernel)
  · exact @meets (twiceRun ++ goes (.worker 2) 9) (.worker 1) (.worker 2) .go .go _ _
      (by decide +kernel)
  · exact @meets thriceRun (.worker 2) (.worker 4) .go .go _ _ (by decide +kernel)
  · exact @meets (twiceRun ++ goes (.worker 2) 10) (.worker 1) (.worker 2) .go .go _ _
      (by decide +kernel)
  · exact @meets (twiceRun ++ goes (.worker 2) 11) (.worker 1) (.worker 2) .go .go _ _
      (by decide +kernel)

/-- The races are exactly those of the list: whatever else conflicts is kept apart by a
mutex or by the order of the program, in every run. -/
theorem races_exactly (a b : Site) :
    (∃ as s, LockReaches as s ∧ Race s a b) ↔ (a, b) ∈ races ∨ (b, a) ∈ races := by
  constructor
  · rintro ⟨as, s, hreach, hrace⟩
    exact hrace.listed hreach
  · rintro (h | h)
    · exact races_happen _ h
    · obtain ⟨as, s, hreach, hrace⟩ := races_happen _ h
      exact ⟨as, s, hreach, hrace.symm⟩

end JudgeServer
