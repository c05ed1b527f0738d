import JudgeServer.Library.Locking
import JudgeServer.Server.State

/-! The threads of server.c between any two of their mutex operations: each
`pthread_mutex_lock`, each `pthread_mutex_unlock` and each piece of code in between is
one step. The database is left out, no query takes a mutex; what the extraction finds
is up to the environment. -/

namespace JudgeServer

open Locking

/-- Clients and compilers are numbered as they are created, so each has mutexes of its own. -/
inductive Mutex
  | compilersMap
  | clientsMap
  | db
  | list (k : CompilerRef)
  | client (c : ClientRef)
  deriving DecidableEq, Repr

/-- The data the threads share; `removed` lists the clients that were deleted from
`clients_map`, in this order. -/
structure Shared where
  serverRunning : Bool
  compilersMap : CompilersMap
  clientsMap : List ClientRef
  clients : ClientRef → Client
  nextClient : ClientRef
  lastClientId : UInt32
  removed : List ClientRef

/-- Where a thread is in `client_loop`, up to the loop. -/
inductive RegisterPlace
  | lockClients (compilers : List UInt16)
  | create (compilers : List UInt16)
  | unlockClients (me : ClientRef) (compilers : List UInt16)
  | lockCompilers (me : ClientRef) (compilers : List UInt16)
  | announce (me : ClientRef) (compilers : List UInt16)
  deriving DecidableEq, Repr

/-- Outside of a locked section of the loop, in its body, or about to leave it. -/
inductive LoopPlace
  | outside
  | body (m : Mutex)
  | leave (m : Mutex)
  deriving DecidableEq, Repr

/-- Where a thread is in `remove_client`, after it has found the client; `ks` are the
compilers whose lists it still has to visit, `free` is `client_free`. -/
inductive RemovePlace
  | lockCompilers
  | visit (ks : List CompilerRef)
  | unlist (k : CompilerRef) (ks : List CompilerRef)
  | unlockList (k : CompilerRef) (ks : List CompilerRef)
  | lockClients
  | unmap
  | unlockClients
  | lockClient
  | slot
  | unslot
  | drain
  | free
  deriving DecidableEq, Repr

/-- Where the polling thread is in `poll_database`. -/
inductive PollPlace
  | initDb
  | top
  | lockDb
  | extract
  | unlockDb (result : Option (List Solution))
  | dispatch (rest : List Solution)
  | closeDb
  deriving DecidableEq

/-- Where a thread is in `push_solution`: `i` is the position in the list of compiler `k`,
`least` and `best` are the minimum so far, `cur` is the client looked at. -/
inductive PushPlace
  | lookup
  | noCompiler
  | lockMap (k : CompilerRef)
  | lockList (k : CompilerRef)
  | scan (k : CompilerRef) (i : ℕ) (least : UInt32) (best : Option ClientRef)
  | lockCur (k : CompilerRef) (i : ℕ) (least : UInt32) (best : Option ClientRef) (cur : ClientRef)
  | load (k : CompilerRef) (i : ℕ) (least : UInt32) (best : Option ClientRef) (cur : ClientRef)
  | unlockCur (k : CompilerRef) (i : ℕ) (least : UInt32) (best : Option ClientRef)
      (cur : ClientRef) (loading : UInt32)
  | noClients (k : CompilerRef)
  | unlockList (k : CompilerRef) (best : Option ClientRef)
  | unlockMap (best : Option ClientRef)
  | lockTarget (c : ClientRef)
  | append (c : ClientRef)
  | unlockTarget (c : ClientRef)
  deriving DecidableEq, Repr

/-- What has called `push_solution`: the dispatch loop, or `remove_client` with the
checking slot or with a queued solution. -/
inductive Caller
  | poll (rest : List Solution)
  | slot (me c : ClientRef)
  | drain (me c : ClientRef)
  deriving DecidableEq

inductive CodePlace
  | idle
  | register (p : RegisterPlace)
  | loop (me : ClientRef) (l : Locals) (p : LoopPlace)
  | remove (me c : ClientRef) (p : RemovePlace)
  | poll (p : PollPlace)
  | push (caller : Caller) (sln : Solution) (p : PushPlace)
  | done
  deriving DecidableEq

/-- Where `push_solution` returns to. -/
def Caller.back : Caller → CodePlace
  | .poll rest => .poll (.dispatch rest)
  | .slot me c => .remove me c .unslot
  | .drain me c => .remove me c .drain

/-- What the environment decides in a step. -/
inductive Decision
  | go
  -- what the handshake brought, and a stop request to the control loop
  | accept (compilers : Option (List UInt16))
  | stop
  | order (order : List ClientRef)
  | memory (mem : CompilersMap.Memory)
  | loop (ev : LoopEv)
  | initDb (ok : Bool)
  | extracted (result : Option (List Solution))

namespace Shared

/-- `HASH_FIND_INT(clients_map, id)` -/
def findClient (d : Shared) (id : UInt32) : Option ClientRef :=
  d.clientsMap.find? fun c => (d.clients c).id = id

def setClient (d : Shared) (c : ClientRef) (client : Client) : Shared :=
  { d with clients := Function.update d.clients c client }

/-- One round of the deletion loop of `remove_client`. -/
def unlist (d : Shared) (k : CompilerRef) (clientId : UInt32) : Shared :=
  let compiler := d.compilersMap.obj k
  let rest := compiler.clientsList.filter (· ≠ clientId)
  { d with compilersMap := { d.compilersMap with
      obj := Function.update d.compilersMap.obj k { compiler with clientsList := rest } } }

/-- The events of the loop outside of its locked sections. -/
def admits (d : Shared) : LoopEv → Bool
  | .running server => server = d.serverRunning
  | .process | .post _ | .clear | .push _ => false
  | _ => true

end Shared

/-- The events inside a locked section: of `process_solutions`, of `post_result` and of
the OP_RESULT branch. -/
def LoopEv.locked : LoopEv → Bool
  | .process | .post _ | .clear => true
  | _ => false

/-- The mutex that the loop of client `me` takes next. -/
def LoopPc.mutex (me : ClientRef) : LoopPc → Option Mutex
  | .process | .clearing => some (.client me)
  | .posting _ _ _ => some .db
  | _ => none

/-- The registration in `client_loop`. -/
def registerNext (d : Shared) : RegisterPlace → Decision → Option (Instr Mutex Shared CodePlace)
  | .lockClients compilers, .go => some (.lock .clientsMap (.register (.create compilers)))
  | .create compilers, .order order => some (.act
      { d with
        clients := Function.update d.clients d.nextClient (clientCreate d.lastClientId)
        clientsMap := rehash order (d.nextClient :: d.clientsMap)
        nextClient := d.nextClient + 1
        lastClientId := d.lastClientId + 1 }
      (.register (.unlockClients d.nextClient compilers)))
  | .unlockClients me compilers, .go =>
    some (.unlock .clientsMap (.register (.lockCompilers me compilers)))
  | .lockCompilers me compilers, .go =>
    some (.lock .compilersMap (.register (.announce me compilers)))
  | .announce me (id :: ids), .memory mem => some (.act
      { d with compilersMap := d.compilersMap.announce (d.clients me).id id mem }
      (.register (.announce me ids)))
  | .announce me [], .go => some (.unlock .compilersMap (.loop me ⟨.top, .other 0⟩ .outside))
  | _, _ => none

/-- The loop in `client_loop`, with `process_solutions` and `post_result`, up to the
lookup of `remove_client`. -/
def loopNext (d : Shared) (me : ClientRef) (l : Locals) :
    LoopPlace → Decision → Option (Instr Mutex Shared CodePlace)
  | .outside, .go =>
    match l.pc.mutex me with
    | some m => some (.lock m (.loop me l (.body m)))
    | none =>
      if l.pc = .removing then
        match d.findClient (d.clients me).id with
        | some c => some (.act d (.remove me c .lockCompilers))
        | none => some (.act d .done)
      else if l.pc = .ended then some (.act d .done)
      else none
  | .outside, .loop ev =>
    if d.admits ev then
      (loopStep (d.clients me, l) ev).map fun r => .act (d.setClient me r.1) (.loop me r.2 .outside)
    else none
  | .body m, .loop ev =>
    if ev.locked then
      (loopStep (d.clients me, l) ev).map fun r => .act (d.setClient me r.1) (.loop me r.2 (.leave m))
    else none
  | .leave m, .go => some (.unlock m (.loop me l .outside))
  | _, _ => none

/-- `remove_client` -/
def removeNext (d : Shared) (me c : ClientRef) :
    RemovePlace → Decision → Option (Instr Mutex Shared CodePlace)
  | .lockCompilers, .go =>
    -- the entries of compilers_map, in the order of their insertion
    some (.lock .compilersMap (.remove me c (.visit (List.range d.compilersMap.next))))
  | .visit (k :: ks), .go => some (.lock (.list k) (.remove me c (.unlist k ks)))
  | .unlist k ks, .go =>
    some (.act (d.unlist k (d.clients me).id) (.remove me c (.unlockList k ks)))
  | .unlockList k ks, .go => some (.unlock (.list k) (.remove me c (.visit ks)))
  | .visit [], .go => some (.unlock .compilersMap (.remove me c .lockClients))
  | .lockClients, .go => some (.lock .clientsMap (.remove me c .unmap))
  | .unmap, .go => some (.act
      { d with
        clientsMap := d.clientsMap.filter (· ≠ c)
        lastClientId := d.lastClientId - 1
        removed := d.removed ++ [c] }
      (.remove me c .unlockClients))
  | .unlockClients, .go => some (.unlock .clientsMap (.remove me c .lockClient))
  | .lockClient, .go => some (.lock (.client c) (.remove me c .slot))
  | .slot, .go =>
    match (d.clients c).checkingSolution with
    | some sln => some (.act d (.push (.slot me c) sln .lookup))
    | none => some (.act d (.remove me c .drain))
  | .unslot, .go =>
    some (.act (d.setClient c (d.clients c).clearChecking) (.remove me c .drain))
  | .drain, .go =>
    match (d.clients c).solutionsQueue with
    | sln :: rest => some (.act (d.setClient c { d.clients c with solutionsQueue := rest })
        (.push (.drain me c) sln .lookup))
    | [] => some (.unlock (.client c) (.remove me c .free))
  | .free, .go =>
    some (.act (d.setClient c { d.clients c with solutionsQueue := [], checkingSolution := none })
      .done)
  | _, _ => none

/-- `poll_database` -/
def pollNext (d : Shared) : PollPlace → Decision → Option (Instr Mutex Shared CodePlace)
  | .initDb, .initDb ok => some (.act d (if ok then .poll .top else .done))
  | .top, .go => some (.act d (.poll (if d.serverRunning then .lockDb else .closeDb)))
  | .lockDb, .go => some (.lock .db (.poll .extract))
  | .extract, .extracted result => some (.act d (.poll (.unlockDb result)))
  | .unlockDb (some slns), .go => some (.unlock .db (.poll (.dispatch slns)))
  | .unlockDb none, .go => some (.unlock .db (.poll .top))
  | .dispatch (sln :: rest), .go => some (.act d (.push (.poll rest) sln .lookup))
  | .dispatch [], .go => some (.act d (.poll .top))
  | .closeDb, .go => some (.act d .done)
  | _, _ => none

/-- `push_solution` -/
def pushNext (d : Shared) (caller : Caller) (sln : Solution) :
    PushPlace → Decision → Option (Instr Mutex Shared CodePlace)
  | .lookup, .go =>
    match d.compilersMap.find sln.compilerId with
    | some k => some (.act d (.push caller sln (.lockMap k)))
    | none => some (.act d (.push caller sln .noCompiler))
  -- ERR_NOCOMPILER
  | .noCompiler, .go => some (.act d caller.back)
  | .lockMap k, .go => some (.lock .clientsMap (.push caller sln (.lockList k)))
  | .lockList k, .go => some (.lock (.list k) (.push caller sln (.scan k 0 INT32_MAX none)))
  | .scan k i least best, .go =>
    match (d.compilersMap.obj k).clientsList[i]? with
    | some id =>
      match d.findClient id with
      | some cur => some (.act d (.push caller sln (.lockCur k i least best cur)))
      | none => some (.act d (.push caller sln (.scan k (i + 1) least best)))
    | none =>
      match best with
      | some _ => some (.act d (.push caller sln (.unlockList k best)))
      | none => some (.act d (.push caller sln (.noClients k)))
  | .lockCur k i least best cur, .go =>
    some (.lock (.client cur) (.push caller sln (.load k i least best cur)))
  | .load k i least best cur, .go =>
    some (.act d (.push caller sln (.unlockCur k i least best cur (curLoading (d.clients cur)))))
  | .unlockCur k i least best cur loading, .go =>
    some (.unlock (.client cur) (.push caller sln
      (if loading = 0 then .unlockList k (some cur)
      else if loading ≤ least then .scan k (i + 1) loading (some cur)
      else .scan k (i + 1) least best)))
  | .noClients k, .go => some (.act d (.push caller sln (.unlockList k none)))
  | .unlockList k best, .go => some (.unlock (.list k) (.push caller sln (.unlockMap best)))
  | .unlockMap (some c), .go => some (.unlock .clientsMap (.push caller sln (.lockTarget c)))
  -- ERR_NOCLIENTS
  | .unlockMap none, .go => some (.unlock .clientsMap caller.back)
  | .lockTarget c, .go => some (.lock (.client c) (.push caller sln (.append c)))
  | .append c, .go =>
    some (.act (d.setClient c ((d.clients c).push sln)) (.push caller sln (.unlockTarget c)))
  | .unlockTarget c, .go => some (.unlock (.client c) caller.back)
  | _, _ => none

/-- The code of all threads: a task of the pool is `client_loop` or `local_control_loop`. -/
def serverCode : Program Mutex Shared CodePlace Decision
  | d, .idle, .accept none => some (.act d .done)
  | d, .idle, .accept (some compilers) => some (.act d (.register (.lockClients compilers)))
  | d, .idle, .stop => some (.act { d with serverRunning := false } .done)
  | d, .register p, x => registerNext d p x
  | d, .loop me l p, x => loopNext d me l p x
  | d, .remove me c p, x => removeNext d me c p x
  | d, .poll p, x => pollNext d p x
  | d, .push caller sln p, x => pushNext d caller sln p x
  | _, _, _ => none

abbrev LockState := State Who Mutex Shared CodePlace

def Shared.init : Shared where
  serverRunning := true
  compilersMap := ⟨[], fun _ => ⟨0, 0, []⟩, 0⟩
  clientsMap := []
  clients := fun _ => clientCreate 0
  nextClient := 0
  lastClientId := 1
  removed := []

/-- The polling thread, and any number of others. -/
def LockState.init : LockState := .start .init fun
  | .poll => .poll .initDb
  | .worker _ => .idle

/-- The reachable states. -/
def LockReaches (as : List (Who × Decision)) (s : LockState) : Prop :=
  Transition.Run (State.step serverCode) LockState.init as s

end JudgeServer
