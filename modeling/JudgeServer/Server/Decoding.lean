import JudgeServer.Server.Step

/-! The two decoders of `client_loop`, for the handshake and for the packets after it.
They walk a pointer over the buffer as far as the opcode and the count of the packet
say, without a look at its length; a cursor records the offsets they read. -/

namespace JudgeServer

open Transition

def OP_COMPILERS_LIST : UInt8 := 0x89

/-- The pointer `res_pkt`: the bytes of the buffer with what lies behind them, the offset
it points to and the offsets read through it. -/
structure Cursor where
  mem : List UInt8
  pos : ℕ
  reads : List ℕ
  deriving DecidableEq, Repr

namespace Cursor

/-- At the start of a packet, with the memory `beyond` behind it. -/
def start (pkt beyond : List UInt8) : Cursor := ⟨pkt ++ beyond, 0, []⟩

/-- The pointer advances by `n` bytes, which are read. -/
def advance (c : Cursor) (n : ℕ) : Cursor := ⟨c.mem, c.pos + n, c.reads ++ List.range' c.pos n⟩

def byte (c : Cursor) : UInt8 := c.mem.getD c.pos 0

def uint16 (c : Cursor) : UInt16 := readBe16 c.mem c.pos

def uint32 (c : Cursor) : UInt32 := readBe32 c.mem c.pos

end Cursor

/-- The loop over the announced ids. -/
def compilersIds : ℕ → Cursor → List UInt16 × Cursor
  | 0, c => ([], c)
  | n + 1, c =>
    let rest := compilersIds n (c.advance 2)
    (c.uint16 :: rest.1, rest.2)

/-- The handshake packet: `none` for a client that is turned away. -/
def decodeHandshake (c : Cursor) : Option (List UInt16) × Cursor :=
  if c.byte ≠ OP_COMPILERS_LIST then (none, c.advance 1)
  else
    let compilersCount := (c.advance 1).byte
    let ids := compilersIds compilersCount.toNat ((c.advance 1).advance 1)
    (some ids.1, ids.2)

/-- Solution id, result code and test number of a result packet. -/
structure ResultPacket where
  solutionId : UInt32
  resultCode : UInt8
  testNumber : UInt8
  deriving DecidableEq, Repr

/-- A later packet: `none` for an opcode that the switch ignores. -/
def decodeLater (c : Cursor) : Option ResultPacket × Cursor :=
  if c.byte = OP_RESULT then
    let id := c.advance 1
    let code := id.advance 4
    let test := code.advance 1
    (some ⟨id.uint32, code.byte, test.byte⟩, test.advance 1)
  else (none, c.advance 1)

/-- Of a packet that is not empty this is what the loop goes on with. -/
theorem decodePacket_eq {pkt : List UInt8} (beyond : List UInt8) (h : pkt ≠ []) :
    decodePacket pkt beyond = match (decodeLater (.start pkt beyond)).1 with
      | some r => .posting r.solutionId r.resultCode r.testNumber
      | none => .top := by
  rw [decodePacket, if_neg h, decodeLater]
  by_cases hop : (pkt ++ beyond).getD 0 0 = OP_RESULT
  · have hbyte : (Cursor.start pkt beyond).byte = OP_RESULT := hop
    rw [if_pos hop, if_pos hbyte]
    rfl
  · have hbyte : ¬ (Cursor.start pkt beyond).byte = OP_RESULT := hop
    rw [if_neg hop, if_neg hbyte]

namespace Server

/-- `client_loop` up to its loop, for a handshake packet that has arrived. -/
def handshake (s : Server) (t : Tid) (pkt beyond : List UInt8) (order : List ClientRef)
    (mems : List CompilersMap.Memory) : Server :=
  match (decodeHandshake (.start pkt beyond)).1 with
  | none => s
  | some ids =>
    ((s.next (.accept t ids)).next (.register t ids order)).next (.announce t s.nextClient ids mems)

/-- The switch of `client_loop`, for a packet that has arrived. -/
def handlePacket (s : Server) (me : ClientRef) (pkt beyond : List UInt8) (ok : Bool) : Server :=
  match (decodeLater (.start pkt beyond)).1 with
  | none => s
  | some r =>
    let posted := match postResult r.solutionId r.resultCode r.testNumber with
      | some stmt => s.query stmt ok
      | none => s
    posted.setClient me (posted.clients me).clearChecking

/-- The maps, the counter and the database are the same. -/
structure Untouched (s s' : Server) : Prop where
  clientsMap : s'.clientsMap = s.clientsMap
  clients : s'.clients = s.clients
  compilersMap : s'.compilersMap = s.compilersMap
  lastClientId : s'.lastClientId = s.lastClientId
  db : s'.db = s.db

theorem Untouched.refl (s : Server) : s.Untouched s := ⟨rfl, rfl, rfl, rfl, rfl⟩

end Server

/-- It posts as the loop does, and clears the slot. -/
theorem handlePacket_eq {s : Server} {me : ClientRef} {pkt beyond : List UInt8} {r : ResultPacket}
    (e : Errno) (ok : Bool) (hr : (decodeLater (.start pkt beyond)).1 = some r) :
    s.handlePacket me pkt beyond ok =
      (s.postEffect ⟨.posting r.solutionId r.resultCode r.testNumber, e⟩ (.post ok)).setClient me
        (s.clients me).clearChecking := by
  have hclients := s.postEffect_clients ⟨.posting r.solutionId r.resultCode r.testNumber, e⟩
    (.post ok)
  rw [← congrFun hclients me]
  unfold Server.handlePacket
  rw [hr]
  rfl

/-- Of two updates of a client and its thread the last ones count. -/
theorem setClient_setWorker_idem (s : Server) (me : ClientRef) (t : Tid) (c d : Client)
    (pc pc' : WorkerPc) :
    (((s.setClient me c).setWorker t pc).setClient me d).setWorker t pc' =
      (s.setClient me d).setWorker t pc' := by
  simp only [Server.setClient, Server.setWorker, Function.update_idem]

/-- The loop makes the same changes in its two steps. -/
theorem handlePacket_run {s : Server} {t : Tid} {me : ClientRef} {e : Errno}
    {pkt beyond : List UInt8} {r : ResultPacket} (ok : Bool)
    (hr : (decodeLater (.start pkt beyond)).1 = some r)
    (hw : s.workers t = .loop me ⟨.posting r.solutionId r.resultCode r.testNumber, e⟩)
    (hdb : s.dbMutex = false) (hfree : (s.clients me).locked = false) :
    Run Server.step s
      [.loop t me ⟨.posting r.solutionId r.resultCode r.testNumber, e⟩ (.post ok),
        .loop t me ⟨.clearing, e⟩ .clear]
      ((s.handlePacket me pkt beyond ok).setWorker t (.loop me ⟨.top, e⟩)) := by
  rw [handlePacket_eq e ok hr]
  generalize hl : (⟨.posting r.solutionId r.resultCode r.testNumber, e⟩ : Locals) = l at hw ⊢
  have hpost : s.step (.loop t me l (.post ok)) = some
      (((s.postEffect l (.post ok)).setClient me (s.clients me)).setWorker t
        (.loop me ⟨.clearing, e⟩)) := by
    subst hl
    refine Server.step_some.2 ⟨⟨hw, ?_, rfl⟩, rfl⟩
    simp [Server.admits, hdb]
  generalize s.postEffect l (.post ok) = posted at hpost ⊢
  have hme : ((posted.setClient me (s.clients me)).setWorker t (.loop me ⟨.clearing, e⟩)).clients me =
      s.clients me := Server.setClient_same ..
  have hclear : ∀ s' : Server, s'.next (.loop t me ⟨.clearing, e⟩ .clear) =
      (s'.setClient me (s'.clients me).clearChecking).setWorker t (.loop me ⟨.top, e⟩) :=
    fun _ => rfl
  refine Run.cons_iff.2 ⟨_, hpost, Run.single (Server.step_some.2 ⟨⟨?_, ?_, rfl⟩, ?_⟩)⟩
  · exact Server.setWorker_same ..
  · simp [Server.admits, hme, hfree]
  · rw [hclear, hme, setClient_setWorker_idem]

/-- Every byte read lies in the packet. -/
def Cursor.Inside (c : Cursor) (pkt : List UInt8) : Prop := ∀ off ∈ c.reads, off < pkt.length

/-- Too short for its opcode or for its count. -/
def HandshakeShort (pkt : List UInt8) : Prop :=
  pkt = [] ∨ pkt.head? = some OP_COMPILERS_LIST ∧ pkt.length < 2 + 2 * (pkt.getD 1 0).toNat

def PacketShort (pkt : List UInt8) : Prop :=
  pkt = [] ∨ pkt.head? = some OP_RESULT ∧ pkt.length < 7

/-- The decoder stays in the packet, and a packet that is too short changes nothing. -/
structure HandshakeSafe (pkt beyond : List UInt8) : Prop where
  inside : (decodeHandshake (.start pkt beyond)).2.Inside pkt
  rejected : HandshakeShort pkt → ∀ (s : Server) t order mems,
    s.Untouched (s.handshake t pkt beyond order mems)

structure PacketSafe (pkt beyond : List UInt8) : Prop where
  inside : (decodeLater (.start pkt beyond)).2.Inside pkt
  rejected : PacketShort pkt → ∀ (s : Server) me ok, s.Untouched (s.handlePacket me pkt beyond ok)

theorem compilersIds_reads (n : ℕ) (c : Cursor) :
    (compilersIds n c).2.reads = c.reads ++ List.range' c.pos (2 * n) := by
  induction n generalizing c with
  | zero => simp [compilersIds]
  | succ n ih =>
    have hsplit : List.range' c.pos 2 ++ List.range' (c.pos + 2) (2 * n) =
        List.range' c.pos (2 * (n + 1)) := by
      rw [List.range'_append_1, Nat.mul_succ, Nat.add_comm 2]
    simp only [compilersIds, ih, Cursor.advance, List.append_assoc, hsplit]

/-- Reading on from the start, the offsets below `n` have been read. -/
theorem inside_range_iff {c : Cursor} {pkt : List UInt8} {n : ℕ} (h : c.reads = List.range' 0 n) :
    c.Inside pkt ↔ n ≤ pkt.length := by
  simp only [Cursor.Inside, h, List.mem_range'_1]
  constructor
  · intro hall
    by_contra hlt
    have := hall pkt.length (by omega)
    omega
  · intro hle off hoff
    omega

theorem handshake_reads (pkt beyond : List UInt8) :
    (decodeHandshake (.start pkt beyond)).2.reads = List.range' 0
      (if (pkt ++ beyond).getD 0 0 = OP_COMPILERS_LIST then
        2 + 2 * ((pkt ++ beyond).getD 1 0).toNat else 1) := by
  rw [decodeHandshake]
  by_cases hop : (pkt ++ beyond).getD 0 0 = OP_COMPILERS_LIST
  · have hbyte : (Cursor.start pkt beyond).byte = OP_COMPILERS_LIST := hop
    rw [if_neg (not_not.2 hbyte), if_pos hop]
    dsimp only
    rw [compilersIds_reads]
    simp only [Cursor.advance, Cursor.start, Cursor.byte, List.nil_append, Nat.zero_add]
    exact List.range'_append_1 (s := 0) (m := 2) ..
  · have hbyte : (Cursor.start pkt beyond).byte ≠ OP_COMPILERS_LIST := hop
    rw [if_pos hbyte, if_neg hop]
    rfl

theorem later_reads (pkt beyond : List UInt8) :
    (decodeLater (.start pkt beyond)).2.reads =
      List.range' 0 (if (pkt ++ beyond).getD 0 0 = OP_RESULT then 7 else 1) := by
  rw [decodeLater]
  by_cases hop : (pkt ++ beyond).getD 0 0 = OP_RESULT
  · have hbyte : (Cursor.start pkt beyond).byte = OP_RESULT := hop
    rw [if_pos hbyte, if_pos hop]
    rfl
  · have hbyte : ¬ (Cursor.start pkt beyond).byte = OP_RESULT := hop
    rw [if_neg hbyte, if_neg hop]
    rfl

theorem handshake_inside_iff (pkt beyond : List UInt8) :
    (decodeHandshake (.start pkt beyond)).2.Inside pkt ↔ ¬ HandshakeShort pkt := by
  rw [inside_range_iff (handshake_reads pkt beyond), HandshakeShort]
  cases pkt with
  | nil => refine iff_of_false ?_ (by simp); split_ifs <;> simp
  | cons b rest =>
    by_cases hop : b = OP_COMPILERS_LIST
    · -- the count lies in the packet, or the packet is the opcode alone
      cases rest with
      | nil =>
        simp [hop]
        omega
      | cons n rest => simp [hop]
    · simp [hop]

theorem later_inside_iff (pkt beyond : List UInt8) :
    (decodeLater (.start pkt beyond)).2.Inside pkt ↔ ¬ PacketShort pkt := by
  rw [inside_range_iff (later_reads pkt beyond), PacketShort]
  cases pkt with
  | nil => refine iff_of_false ?_ (by simp); split_ifs <;> simp
  | cons b rest =>
    by_cases hop : b = OP_RESULT <;> simp [hop]

/-- The decoders stay inside exactly the packets that are not too short. -/
theorem decoders_safe_iff (pkt beyond : List UInt8) :
    (HandshakeSafe pkt beyond ↔ ¬ HandshakeShort pkt) ∧
      (PacketSafe pkt beyond ↔ ¬ PacketShort pkt) := by
  refine ⟨⟨fun h => ?_, fun h => ⟨?_, fun hshort => absurd hshort h⟩⟩,
    ⟨fun h => ?_, fun h => ⟨?_, fun hshort => absurd hshort h⟩⟩⟩
  · exact (handshake_inside_iff pkt beyond).1 h.inside
  · exact (handshake_inside_iff pkt beyond).2 h
  · exact (later_inside_iff pkt beyond).1 h.inside
  · exact (later_inside_iff pkt beyond).2 h

/-- A handshake packet that announces a compiler and ends, and a result packet of one
byte: bytes behind the packets are read, a client is registered, a verdict is posted. -/
theorem short_packets_decoded :
    ¬ HandshakeSafe [0x89, 1] [0, 5] ∧
      ((Server.init oneNewRow).handshake 0 [0x89, 1] [0, 5] [] []).clientsMap = [0] ∧
      ¬ PacketSafe [109] [0, 0, 0, 1, 0, 1] ∧
      ({ Server.init oneNewRow with conn := .open }.handlePacket 0 [109] [0, 0, 0, 1, 0, 1]
        true).db.tuples.map (fun t : Tuple => t.current.checking) = [2] := by
  refine ⟨fun h => ?_, rfl, fun h => ?_, rfl⟩
  · exact absurd (h.inside 3 (by decide)) (by decide)
  · exact absurd (h.inside 6 (by decide)) (by decide)

end JudgeServer
