import JudgeServer.Client.Verdict

/-! The shared state of server.c and the local states of its threads. Objects are
addressed by numbers that are never reused, so an object that has been freed can
still be told from every other one; what a run does after it has touched a freed client
is not what the program does, whose `malloc` may give the memory out again. -/

namespace JudgeServer

abbrev ClientRef := ℕ

abbrev CompilerRef := ℕ

abbrev Tid := ℕ

/-- `compiler_t`; `padding` are the two bytes that follow `id` in memory. -/
structure Compiler where
  id : UInt16
  padding : UInt16
  clientsList : List UInt32
  deriving DecidableEq, Repr

/-- The four bytes that uthash reads as a key at the address of a 16-bit id. -/
def key16 (id padding : UInt16) : UInt32 := id.toUInt32 ||| padding.toUInt32 <<< 16

def Compiler.key (k : Compiler) : UInt32 := key16 k.id k.padding

/-- `compilers_map`: the entries in the order of their bucket chain, and the objects. -/
structure CompilersMap where
  chain : List CompilerRef
  obj : CompilerRef → Compiler
  next : CompilerRef

/-- A new entry is the first of its bucket chain, but expanding the buckets may put
the chain into any other order. -/
def rehash (order chain : List ℕ) : List ℕ := if order.isPerm chain then order else chain

theorem rehash_perm (order chain : List ℕ) : (rehash order chain).Perm chain := by
  unfold rehash
  split_ifs with h
  · exact List.isPerm_iff.1 h
  · exact List.Perm.refl chain

@[simp] theorem mem_rehash {order chain : List ℕ} {c : ℕ} : c ∈ rehash order chain ↔ c ∈ chain :=
  (rehash_perm order chain).mem_iff

namespace CompilersMap

/-- `HASH_FIND_INT(compilers_map, key)` -/
def find (m : CompilersMap) (key : UInt32) : Option CompilerRef :=
  m.chain.find? fun k => (m.obj k).key = key

/-- What the environment decides when one compiler id is announced: the bytes behind
the local variable and behind the field, and the chain after an insertion. -/
structure Memory where
  behindLocal : UInt16
  behindField : UInt16
  order : List CompilerRef

/-- `HASH_ADD_INT(compilers_map, id, compiler_create(id))` -/
def create (m : CompilersMap) (id : UInt16) (mem : Memory) : CompilersMap where
  chain := rehash mem.order (m.next :: m.chain)
  obj := Function.update m.obj m.next ⟨id, mem.behindField, []⟩
  next := m.next + 1

/-- `HASH_ADD_INT(compiler->clients_list, id, client_id)` -/
def addClient (m : CompilersMap) (k : CompilerRef) (clientId : UInt32) : CompilersMap :=
  let compiler := { m.obj k with clientsList := (m.obj k).clientsList ++ [clientId] }
  { m with obj := Function.update m.obj k compiler }

/-- One round of the registration loop over the announced ids. -/
def announce (m : CompilersMap) (clientId : UInt32) (compilerId : UInt16) (mem : Memory) :
    CompilersMap :=
  match m.find (key16 compilerId mem.behindLocal) with
  | some k => m.addClient k clientId
  | none => (m.create compilerId mem).addClient m.next clientId

/-- The loop; where `mems` is too short the bytes are zero and the chain is kept. -/
def announceAll (clientId : UInt32) : List UInt16 → List Memory → CompilersMap → CompilersMap
  | [], _, m => m
  | id :: ids, [], m => announceAll clientId ids [] (m.announce clientId id ⟨0, 0, []⟩)
  | id :: ids, mem :: mems, m => announceAll clientId ids mems (m.announce clientId id mem)

/-- Every entry with the id is deleted from every list. -/
def unlist (m : CompilersMap) (clientId : UInt32) : CompilersMap :=
  { m with obj := fun k =>
      if k ∈ m.chain then
        { m.obj k with clientsList := (m.obj k).clientsList.filter (· ≠ clientId) }
      else m.obj k }

end CompilersMap

/-- `cur_loading`: the sum is the condition of the conditional expression. -/
def curLoading (c : Client) : UInt32 :=
  if UInt32.ofNat c.solutionsQueue.length + (if c.checkingSolution ≠ none then 1 else 0) ≠ 0
  then 1 else 0

def INT32_MAX : UInt32 := 2147483647

/-- The loop of `push_solution` over a compiler's list, with its running minimum. -/
def chooseClient (find : UInt32 → Option ClientRef) (load : ClientRef → UInt32) :
    List UInt32 → UInt32 → Option ClientRef → Option ClientRef
  | [], _, best => best
  | id :: ids, least, best =>
    match find id with
    | none => chooseClient find load ids least best
    | some c =>
      if load c = 0 then some c
      else if load c ≤ least then chooseClient find load ids (load c) (some c)
      else chooseClient find load ids least best

/-- Where a thread is inside `push_solution`. -/
inductive PushPc
  | lookup
  | noCompiler
  | choose (compiler : CompilerRef)
  | append (client : ClientRef)
  deriving DecidableEq, Repr

/-- A call of `push_solution` in progress. -/
structure PushCall where
  sln : Solution
  pc : PushPc
  deriving DecidableEq, Repr

/-- Where the polling thread is in `poll_database`. -/
inductive PollPc
  | init
  | top
  | sleep
  | extract (e : ExtractPc)
  | dispatch (rest : List Solution)
  | close
  | done
  deriving DecidableEq

/-- Where a thread is in `remove_client`, after it has found the client. -/
inductive RemovePc
  | lists
  | map
  | lock
  | slot
  | drain
  | free
  deriving DecidableEq, Repr

/-- Where a worker thread is in `client_loop`: `me` is the client it serves, `c` the one
that its `remove_client` has found. -/
inductive WorkerPc
  | idle
  | register (compilers : List UInt16)
  | announce (me : ClientRef) (compilers : List UInt16)
  | loop (me : ClientRef) (l : Locals)
  | remove (me c : ClientRef) (pc : RemovePc)
  | done
  deriving DecidableEq, Repr

/-- The client whose removal the thread is in. -/
def WorkerPc.removes : WorkerPc → Option ClientRef
  | .remove _ c _ => some c
  | _ => none

/-- The client that the thread has taken out of `clients_map` and not drained yet. -/
def WorkerPc.unmapped : WorkerPc → Option ClientRef
  | .remove _ c .lock => some c
  | .remove _ c .slot => some c
  | .remove _ c .drain => some c
  | _ => none

/-- The client whose mutex the thread stays inside of. -/
def WorkerPc.inside : WorkerPc → Option ClientRef
  | .remove _ c .slot => some c
  | .remove _ c .drain => some c
  | _ => none

/-- The threads that call `push_solution`. -/
inductive Who
  | poll
  | worker (t : Tid)
  deriving DecidableEq, Repr

/-- The life of `conn`. -/
inductive Conn
  | unset
  | failed
  | open
  | closed
  deriving DecidableEq, Repr

/-- A query as it was issued: on which connection, with what success, and whether its
where clause matched a row. -/
structure Query where
  stmt : Stmt
  conn : Conn
  ok : Bool
  found : Bool
  deriving DecidableEq, Repr

structure Server where
  serverRunning : Bool
  compilersMap : CompilersMap
  clientsMap : List ClientRef
  clients : ClientRef → Client
  nextClient : ClientRef
  lastClientId : UInt32
  conn : Conn
  db : Table
  dbMutex : Bool
  log : List Query
  nextAddr : ℕ
  poll : PollPc
  workers : Tid → WorkerPc
  calls : Who → Option PushCall

namespace Server

/-- The server before its threads run, on a database without an open transaction. -/
def init (db : Table) : Server where
  serverRunning := true
  compilersMap := ⟨[], fun _ => ⟨0, 0, []⟩, 0⟩
  clientsMap := []
  clients := fun _ => clientCreate 0
  nextClient := 0
  lastClientId := 1
  conn := .unset
  db := db
  dbMutex := false
  log := []
  nextAddr := 0
  poll := .init
  workers := fun _ => .idle
  calls := fun _ => none

/-- `HASH_FIND_INT(clients_map, id)`: the first entry of the chain with this id. -/
def findClient (s : Server) (id : UInt32) : Option ClientRef :=
  s.clientsMap.find? fun c => (s.clients c).id = id

/-- The client `push_solution` chooses from the list of a compiler. -/
def chooseFrom (s : Server) (k : CompilerRef) : Option ClientRef :=
  chooseClient s.findClient (fun c => curLoading (s.clients c)) (s.compilersMap.obj k).clientsList
    INT32_MAX none

def setClient (s : Server) (c : ClientRef) (client : Client) : Server :=
  { s with clients := Function.update s.clients c client }

def setWorker (s : Server) (t : Tid) (pc : WorkerPc) : Server :=
  { s with workers := Function.update s.workers t pc }

def setCall (s : Server) (who : Who) (call : Option PushCall) : Server :=
  { s with calls := Function.update s.calls who call }

@[simp] theorem setClient_same (s : Server) (c : ClientRef) (client : Client) :
    (s.setClient c client).clients c = client := Function.update_self ..

theorem setClient_other (s : Server) {c d : ClientRef} (client : Client) (h : d ≠ c) :
    (s.setClient c client).clients d = s.clients d := Function.update_of_ne h ..

@[simp] theorem setWorker_same (s : Server) (t : Tid) (pc : WorkerPc) :
    (s.setWorker t pc).workers t = pc := Function.update_self ..

theorem setWorker_other (s : Server) {t u : Tid} (pc : WorkerPc) (h : u ≠ t) :
    (s.setWorker t pc).workers u = s.workers u := Function.update_of_ne h ..

theorem setWorker_cases (s : Server) (t u : Tid) (pc : WorkerPc) :
    u = t ∧ (s.setWorker t pc).workers u = pc ∨
      u ≠ t ∧ (s.setWorker t pc).workers u = s.workers u := by
  by_cases hu : u = t
  · subst hu
    exact Or.inl ⟨rfl, s.setWorker_same u pc⟩
  · exact Or.inr ⟨hu, s.setWorker_other pc hu⟩

@[simp] theorem setCall_same (s : Server) (who : Who) (call : Option PushCall) :
    (s.setCall who call).calls who = call := Function.update_self ..

theorem setCall_other (s : Server) {who w : Who} (call : Option PushCall) (h : w ≠ who) :
    (s.setCall who call).calls w = s.calls w := Function.update_of_ne h ..

/-- `query` on the shared connection; without an open connection it has no effect. -/
def query (s : Server) (stmt : Stmt) (ok : Bool) : Server :=
  let done := ok && s.conn = .open
  { s with
    db := if done then s.db.exec stmt else s.db
    log := ⟨stmt, s.conn, done, match stmt with
      | .postResult id _ _ => s.db.has id
      | .setChecking id => s.db.has id
      | _ => true⟩ :: s.log }

/-- `solution_post_result(sln->id, 0, "FL")` -/
def postFailed (s : Server) (sln : Solution) (ok : Bool) : Server :=
  s.query (.postResult sln.id 0 (cstr "FL")) ok

end Server

theorem chooseClient_mem {find : UInt32 → Option ClientRef} {load : ClientRef → UInt32}
    {ids : List UInt32} {least : UInt32} {best : Option ClientRef} {c : ClientRef}
    (h : chooseClient find load ids least best = some c) :
    best = some c ∨ ∃ id ∈ ids, find id = some c := by
  induction ids generalizing least best with
  | nil => exact Or.inl h
  | cons id ids ih =>
    have later : ∀ {least best}, chooseClient find load ids least best = some c →
        best = some c ∨ ∃ i ∈ id :: ids, find i = some c := by
      intro least best h
      rcases ih h with hb | ⟨i, hi, hf⟩
      · exact Or.inl hb
      · exact Or.inr ⟨i, List.mem_cons_of_mem id hi, hf⟩
    simp only [chooseClient] at h
    split at h
    · exact later h
    · rename_i c' hfind
      have hhere : ∃ i ∈ id :: ids, find i = some c' := ⟨id, by simp, hfind⟩
      split_ifs at h with hzero hle
      · obtain rfl := Option.some.inj h
        exact Or.inr hhere
      · rcases later h with hb | hb
        · obtain rfl := Option.some.inj hb
          exact Or.inr hhere
        · exact Or.inr hb
      · exact later h

theorem findClient_some {s : Server} {id : UInt32} {c : ClientRef} (h : s.findClient id = some c) :
    c ∈ s.clientsMap ∧ (s.clients c).id = id :=
  ⟨List.mem_of_find?_eq_some h, by simpa using List.find?_some h⟩

/-- The chosen client is registered at that moment. -/
theorem chooseFrom_mem {s : Server} {k : CompilerRef} {c : ClientRef}
    (h : s.chooseFrom k = some c) : c ∈ s.clientsMap := by
  rcases chooseClient_mem h with hb | ⟨id, -, hf⟩
  · cases hb
  · exact (findClient_some hf).1

end JudgeServer
